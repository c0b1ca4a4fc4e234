import Mathlib.Data.String.Basic
import Monkey.Proofs.Seam
import Monkey.Proofs.Walks

/-! The pieces that a source is cut into, and where tokens and errors say that they are. -/
namespace Monkey
open Token (Kind)
open Piece

theorem utf8Length_eq_utf8Len (cs : List Char) : utf8Length cs = String.utf8Len cs := by
  induction cs with
  | nil => rfl
  | cons c cs ih =>
    have hcons : utf8Length (c :: cs) = c.utf8Size + utf8Length cs := rfl
    rw [hcons, ih, String.utf8Len_cons, Nat.add_comm]

/-- The bytes of a quote at either end of a token of the kind. -/
def Token.Kind.quoteBytes (k : Kind) : Nat := if k = .string then 1 else 0

/-- The token is `piece`, which stands behind `before` in the source: its range are the bytes of the piece, without the
quotes of a string, and lexeme and line are those that the source has there. -/
structure Token.Located (t : Token) (source : String) (before piece : List Char) : Prop where
  kind : t.kind ≠ .endOfFile
  spelling : t.spelling = piece
  start : t.start = utf8Length before + t.kind.quoteBytes
  stop : t.stop + t.kind.quoteBytes = utf8Length before + utf8Length piece
  lexeme : t.lexeme = String.Pos.Raw.extract source ⟨t.start⟩ ⟨t.stop⟩
  line : t.line = (String.Pos.Raw.extract source 0 ⟨t.stop⟩).toList.count '\n'

/-- The end of a source as a token, with an empty range behind all its bytes. -/
def Token.endOf (source : String) : Token where
  kind := .endOfFile
  start := source.utf8ByteSize
  stop := source.utf8ByteSize
  line := source.toList.count '\n'
  lexeme := "end of file"

/-- A reading says where its piece is. -/
def Locates (source : String) (before piece : List Char) : Except LexError Token → Prop
  | .ok t => t.Located source before piece
  | .error e => e.line = 1 + before.count '\n'

namespace Cursor

/-- The cursor stands behind `before` in the source. -/
structure Behind (pos : Cursor) (source : String) (before : List Char) : Prop where
  text : before ++ pos.rest = source.toList
  offset : pos.offset = utf8Length before
  line : pos.line = before.count '\n'

theorem behind_ofString (source : String) : (ofString source).Behind source [] := ⟨rfl, rfl, rfl⟩

end Cursor

/-- A part of the source, by its byte range. -/
theorem extract_behind {source : String} {before part behind : List Char}
    (h : before ++ (part ++ behind) = source.toList) :
    String.Pos.Raw.extract source ⟨utf8Length before⟩ ⟨utf8Length before + utf8Length part⟩ = String.ofList part := by
  have hsource : source = String.ofList (before ++ part ++ behind) := by
    rw [List.append_assoc, h, String.ofList_toList]
  rw [hsource, utf8Length_eq_utf8Len, utf8Length_eq_utf8Len]
  exact String.extract_of_valid before part behind

theorem Piece.quotes_ofWord (k : Kind) (w rest : List Char) :
    utf8Length (ofWord k w rest).opening = k.quoteBytes ∧ (ofWord k w rest).opening.count '\n' = 0 ∧
      utf8Length (ofWord k w rest).closing = k.quoteBytes := by
  by_cases hk : k = .string
  · subst hk
    exact ⟨rfl, rfl, rfl⟩
  · have hquote : k.quoteBytes = 0 := if_neg hk
    rw [ofWord_of_ne hk, hquote]
    exact ⟨rfl, rfl, rfl⟩

namespace Cursor
variable {pos : Cursor} {source : String} {before rest w : List Char} {k : Kind}

variable {p : Piece}

theorem Behind.start_token (h : pos.Behind source before) :
    (pos.token k p).start = utf8Length (before ++ p.opening) := by
  rw [utf8Length_append, ← h.offset]
  rfl

theorem Behind.stop_token (h : pos.Behind source before) :
    (pos.token k p).stop = utf8Length (before ++ p.opening) + utf8Length p.lexeme := by
  rw [← h.start_token (k := k)]
  rfl

theorem Behind.lexeme_token (h : pos.Behind source before) (hrest : pos.rest = p.taken ++ rest) :
    let t := pos.token k p
    t.lexeme = String.Pos.Raw.extract source ⟨t.start⟩ ⟨t.stop⟩ := by
  intro t
  have htext : before ++ p.opening ++ (p.lexeme ++ (p.closing ++ rest)) = source.toList := by
    rw [← h.text, hrest, taken]
    simp only [List.append_assoc]
  rw [h.start_token, h.stop_token, extract_behind htext]
  rfl

theorem Behind.line_token (h : pos.Behind source before) (hrest : pos.rest = p.taken ++ rest)
    (hopening : p.opening.count '\n' = 0) :
    let t := pos.token k p
    t.line = (String.Pos.Raw.extract source 0 ⟨t.stop⟩).toList.count '\n' := by
  intro t
  have htext : [] ++ ((before ++ p.opening ++ p.lexeme) ++ (p.closing ++ rest)) = source.toList := by
    rw [← h.text, hrest, taken, List.nil_append]
    simp only [List.append_assoc]
  have hextract := extract_behind htext
  have hnil : utf8Length [] = 0 := rfl
  rw [utf8Length_append _ p.lexeme, ← h.stop_token (k := k), hnil, Nat.zero_add] at hextract
  calc t.line
    _ = before.count '\n' + p.lexeme.count '\n' := congrArg (· + p.lexeme.count '\n') h.line
    _ = (before ++ p.opening ++ p.lexeme).count '\n' := by rw [List.count_append, List.count_append, hopening]; rfl
    _ = _ := by rw [← String.toList_ofList (l := before ++ p.opening ++ p.lexeme), ← hextract]; rfl

theorem Behind.located (h : pos.Behind source before) (hin : Token.InClass rest k w) (hrest : pos.rest = w ++ rest) :
    (pos.token k (ofWord k w rest)).Located source before w := by
  obtain ⟨hopening, hnewline, hclosing⟩ := quotes_ofWord k w rest
  have hword := hin.taken_ofWord
  have hpiece : pos.rest = (ofWord k w rest).taken ++ rest := by rw [hword, hrest]
  refine ⟨hin.ne_endOfFile, hin.spelling_token pos, ?_, ?_, h.lexeme_token hpiece, h.line_token hpiece hnewline⟩
  · rw [h.start_token, utf8Length_append, hopening]
    rfl
  · have hlength := congrArg utf8Length hword
    rw [taken, utf8Length_append, utf8Length_append, hclosing] at hlength
    have hkind : (pos.token k (ofWord k w rest)).kind = k := rfl
    rw [h.stop_token, utf8Length_append, hkind]
    omega

theorem Behind.locates (h : pos.Behind source before) {c : Char} {cs : List Char} (hrest : pos.rest = c :: cs) :
    Locates source before (cut c cs).taken (pos.reading (cut c cs)) := by
  rw [reading]
  cases hreading : (cut c cs).reading with
  | error fault => exact (congrArg (· + 1) h.line).trans (Nat.add_comm _ 1)
  | ok k =>
    have hin := (isWhole_cut c cs k hreading).inClass
    have hlocated := h.located hin (hrest.trans (taken_append_rest c cs).symm)
    rwa [← cut_eq_ofWord hreading] at hlocated

/-- A reading consumes a piece that is not empty, and says where it is. -/
theorem Behind.next (h : pos.Behind source before) (hrest : pos.rest ≠ []) :
    ∃ piece, piece ≠ [] ∧ pos.rest = piece ++ pos.next.2.rest ∧ pos.next.2.Behind source (before ++ piece) ∧
      Locates source before piece pos.next.1 := by
  obtain ⟨c, cs, hcons⟩ := List.exists_cons_of_ne_nil hrest
  have hnext : pos.next = (pos.reading (cut c cs), pos.after (cut c cs)) := by
    rw [Cursor.next, hcons]
  have htaken := taken_append_rest c cs
  rw [hnext, hcons]
  refine ⟨(cut c cs).taken, fun hnil => ?_, htaken.symm, ⟨?_, ?_, ?_⟩, h.locates hcons⟩
  · have hhead := head_taken c cs
    rw [hnil] at hhead
    cases hhead
  · rw [List.append_assoc, ← h.text, hcons, ← htaken]
    rfl
  · rw [utf8Length_append, ← h.offset]
    rfl
  · rw [List.count_append, ← h.line]
    rfl

/-- The walk goes on piece by piece to the end of the source and stays there. -/
theorem Behind.pieces {pos : Cursor} {before : List Char} (h : pos.Behind source before) :
    ∃ pieces : List (List Char), pieces.flatten = pos.rest ∧ (∀ piece ∈ pieces, piece ≠ []) ∧
      (∀ i (hi : i < pieces.length), (advance i pos).rest = pieces[i] ++ (advance (i + 1) pos).rest ∧
        Locates source (before ++ (pieces.take i).flatten) pieces[i] (advance i pos).next.1) ∧
      ∀ i, pieces.length ≤ i → (advance i pos).Behind source source.toList := by
  by_cases hrest : pos.rest = []
  · have htext := h.text
    rw [hrest, List.append_nil] at htext
    refine ⟨[], hrest.symm, List.forall_mem_nil _, fun i hi => absurd hi (Nat.not_lt_zero i), fun i _ => ?_⟩
    rw [advance_of_atEnd hrest, ← htext]
    exact h
  · obtain ⟨piece, hne, hcut, hnext, hlocates⟩ := h.next hrest
    have hless : pos.next.2.rest.length < pos.rest.length := by
      rw [hcut, List.length_append]
      exact Nat.lt_add_of_pos_left (List.length_pos_iff.mpr hne)
    obtain ⟨pieces, hflatten, hpieces, hwalk, hend⟩ := hnext.pieces
    refine ⟨piece :: pieces, ?_, List.forall_mem_cons.mpr ⟨hne, hpieces⟩, fun i hi => ?_, fun i hi => ?_⟩
    · rw [List.flatten_cons, hflatten, hcut]
    · cases i with
      | zero =>
        rw [List.take_zero, List.flatten_nil, List.append_nil]
        exact ⟨hcut, hlocates⟩
      | succ i =>
        have hi' : i < pieces.length := Nat.lt_of_succ_lt_succ hi
        have hbehind := (hwalk i hi').2
        rw [List.append_assoc] at hbehind
        exact ⟨(hwalk i hi').1, hbehind⟩
    · cases i with
      | zero => exact absurd hi (Nat.not_succ_le_zero _)
      | succ i => exact hend i (Nat.le_of_succ_le_succ hi)
termination_by pos.rest.length

/-- At the end of the source every reading is the end of the file. -/
theorem Behind.next_of_all {pos : Cursor} (h : pos.Behind source source.toList) :
    pos.next.1 = .ok (.endOf source) := by
  have hsize : utf8Length source.toList = source.utf8ByteSize := by
    rw [utf8Length_eq_utf8Len, String.utf8Len_toList]
  rw [next_of_atEnd (List.append_right_eq_self.mp h.text), h.offset, h.line, hsize]
  rfl

end Cursor

/-- The readings of a source up to its end consume pieces that are not empty and together are the source, one after
the other. A token's range is that of its piece in bytes, without the quotes of a string, its lexeme is the text of
the source there, and its line is the number of line breaks before the range's end; an error's line is one more than
the number of line breaks before its piece. From the end on, every reading is the end of the file, at the end. -/
theorem source_is_cut_without_loss (source : String) :
    let walk := fun i => (Cursor.ofString source).advance i
    ∃ pieces : List (List Char), pieces.flatten = source.toList ∧ (∀ piece ∈ pieces, piece ≠ []) ∧
      (∀ i (hi : i < pieces.length), (walk i).rest = pieces[i] ++ (walk (i + 1)).rest ∧
        Locates source (pieces.take i).flatten pieces[i] (walk i).next.1) ∧
      ∀ i, pieces.length ≤ i → (walk i).next.1 = .ok (.endOf source) := by
  intro walk
  obtain ⟨pieces, hflatten, hpieces, hwalk, hend⟩ := (Cursor.behind_ofString source).pieces
  exact ⟨pieces, hflatten, hpieces, hwalk, fun i hi => (hend i hi).next_of_all⟩

end Monkey
