import Monkey.Proofs.Walks

/-! The lexer takes the longest word of any class of tokens. Where no class has a word at the head of the text, it
refuses a character, or a string to the end of its line. -/
namespace Monkey
open Token (Kind)
open Piece

/-- Of the words at the head of a text that are in the class of a kind of token, `w` is the longest. A word that is a
keyword is of that keyword's kind, and any other is an identifier. -/
structure Token.Longest (k : Kind) (w rest : List Char) : Prop where
  inClass : InClass rest k w
  longest : ∀ k' w' rest', w' ++ rest' = w ++ rest → InClass rest' k' w' → w'.length ≤ w.length
  keyword : IsWord w → k = (Kind.ofKeyword? (String.ofList w)).getD .identifier

/-- What a text loses that begins with no token: a character that begins none, or else a string that is not closed,
with its line break or to the end. -/
inductive Refused : List Char → LexFault → List Char → Prop where
  | character {c : Char} {rest : List Char} : c ≠ '"' → Refused (c :: rest) .unexpectedCharacter rest
  | line {inside rest : List Char} : '\n' ∉ inside →
      Refused ('"' :: (inside ++ '\n' :: rest)) .unterminatedString rest
  | toEnd {inside : List Char} : '\n' ∉ inside → Refused ('"' :: inside) .unterminatedString []

namespace Piece
open Token
variable {c : Char} {cs rest w : List Char} {k : Kind}

theorem exists_reading_pair (next : Char) (long short : Kind) (c : Char) (cs : List Char) :
    ∃ k, (pair next long short c cs).reading = .ok k := by
  cases cs with
  | nil => exact ⟨short, rfl⟩
  | cons d cs =>
    rw [pair]
    split
    · exact ⟨long, rfl⟩
    · exact ⟨short, rfl⟩

theorem exists_reading_slashOrComment (c : Char) (cs : List Char) :
    ∃ k, (slashOrComment c cs).reading = .ok k := by
  cases cs with
  | nil => exact ⟨.slash, rfl⟩
  | cons d cs =>
    rw [slashOrComment]
    split
    · exact ⟨.comment, rfl⟩
    · exact ⟨.slash, rfl⟩

/-- The lexer takes a piece that is a token and at least as long as the word. -/
def Covers (p : Piece) (w : List Char) : Prop := (∃ k, p.reading = .ok k) ∧ w.length ≤ p.taken.length

theorem length_taken_pos (c : Char) (cs : List Char) : 1 ≤ (cut c cs).taken.length := by
  have hhead := head_taken c cs
  cases h : (cut c cs).taken with
  | nil =>
    rw [h] at hhead
    cases hhead
  | cons => exact Nat.succ_le_succ (Nat.zero_le _)

theorem length_le_takeWhile {p : Char → Bool} (h : ∀ d ∈ cs, p d = true) :
    cs.length ≤ ((cs ++ rest).takeWhile p).length := by
  rw [List.takeWhile_append_of_pos h, List.length_append]
  exact Nat.le_add_right _ _

theorem covers_of_isWord (hw : IsWord w) (htext : c :: cs = w ++ rest) : (cut c cs).Covers w := by
  obtain ⟨d, ds, rfl, hd, hds⟩ := hw
  rw [List.cons_append] at htext
  obtain ⟨rfl, rfl⟩ := List.cons.inj htext
  have hstart := isWordStart_iff.mpr hd
  rw [cut_wordPart _ (isWordPart_of_isWordStart hstart), if_pos hstart]
  refine ⟨⟨_, rfl⟩, ?_⟩
  simp only [word, taken, List.nil_append, List.append_nil, List.length_cons]
  exact Nat.succ_le_succ (length_le_takeWhile fun e he => isWordPart_iff.mpr (hds e he))

theorem covers_of_whole (h : Whole k w rest) (htext : c :: cs = w ++ rest) : (cut c cs).Covers w := by
  rw [cut_of_whole h htext]
  refine ⟨⟨k, ?_⟩, Nat.le_of_eq (congrArg List.length h.inClass.taken_ofWord.symm)⟩
  rw [ofWord]
  split <;> rfl

/-- No word of any class is longer than the piece. -/
theorem covers_of_inClass (h : InClass rest k w) (htext : c :: cs = w ++ rest) : (cut c cs).Covers w := by
  have hpos := length_taken_pos c cs
  cases h with
  | mark hk =>
    exact covers_of_whole (.of_head (.mark hk) (fun d _ => Kind.goesOn_of_ofChar? hk d) rfl (isWordStart_of_ofChar? hk))
      htext
  | bangEqual => exact covers_of_whole (.of_head .bangEqual (fun _ _ => rfl) rfl rfl) htext
  | equalEqual => exact covers_of_whole (.of_head .equalEqual (fun _ _ => rfl) rfl rfl) htext
  | comment hinside hrest =>
    have hends : ∀ d ∈ rest.head?, Kind.comment.goesOn d = false := fun d hd => by simp [Kind.goesOn, hrest d hd]
    exact covers_of_whole (.of_head (.comment hinside hrest) hends rfl rfl) htext
  | string hinside => exact covers_of_whole (.of_head (.string hinside) (fun _ _ => rfl) rfl rfl) htext
  -- These three may be the head of a longer word.
  | bang =>
    obtain ⟨rfl, -⟩ := List.cons.inj htext
    exact ⟨exists_reading_pair '=' .bangEqual .bang '!' cs, hpos⟩
  | equal =>
    obtain ⟨rfl, -⟩ := List.cons.inj htext
    exact ⟨exists_reading_pair '=' .equalEqual .equal '=' cs, hpos⟩
  | slash =>
    obtain ⟨rfl, -⟩ := List.cons.inj htext
    exact ⟨exists_reading_slashOrComment '/' cs, hpos⟩
  | integer hds =>
    rw [List.cons_append] at htext
    obtain ⟨rfl, rfl⟩ := List.cons.inj htext
    obtain ⟨hd, hds⟩ := List.forall_mem_cons.mp hds
    rw [cut_wordPart _ (isWordPart_of_isDigit hd), isWordStart_eq_false hd, if_neg Bool.false_ne_true, if_pos hd]
    refine ⟨⟨_, rfl⟩, ?_⟩
    simp only [digits, taken, List.nil_append, List.append_nil, List.length_cons]
    exact Nat.succ_le_succ (length_le_takeWhile hds)
  | identifier hword => exact covers_of_isWord hword htext
  | keyword hword _ => exact covers_of_isWord hword htext

/-- If the piece is no token, it is a part of the text that is refused. -/
def IsRefusal (p : Piece) (text : List Char) : Prop := ∀ fault, p.reading = .error fault → Refused text fault p.rest

theorem isRefusal_of_token {p : Piece} (h : ∃ k, p.reading = .ok k) (text : List Char) : p.IsRefusal text := by
  intro fault hfault
  obtain ⟨k, hk⟩ := h
  rw [hk] at hfault
  cases hfault

theorem isRefusal_string (cs : List Char) : (string '"' cs).IsRefusal ('"' :: cs) := by
  have hinside : '\n' ∉ cs.takeWhile isStringPart := newline_notMem (by decide) List.all_takeWhile
  have hcs : cs.takeWhile isStringPart ++ cs.dropWhile isStringPart = cs := List.takeWhile_append_dropWhile
  rw [string]
  split
  · next hrest =>
    rintro _ ⟨⟩
    rw [hrest, List.append_nil] at hcs
    rw [hcs] at hinside
    exact .toEnd hinside
  · next d rest hrest =>
    rw [hrest] at hcs
    have hstop : isStringPart d = false := eq_false_of_head?_dropWhile d (by rw [hrest]; rfl)
    split
    · exact isRefusal_of_token ⟨_, rfl⟩ _
    · next hd =>
      rintro _ ⟨⟩
      have hnewline : d = '\n' := by
        refine Classical.byContradiction fun hn => ?_
        rw [isStringPart_iff.mpr ⟨hd, hn⟩] at hstop
        cases hstop
      rw [← hcs, hnewline]
      exact .line hinside

theorem isRefusal_cut (c : Char) (cs : List Char) : (cut c cs).IsRefusal (c :: cs) := by
  unfold cut
  split
  · exact isRefusal_of_token (exists_reading_pair ..) _
  split
  · exact isRefusal_of_token (exists_reading_pair ..) _
  split
  · next hc =>
    subst hc
    exact isRefusal_string cs
  split
  · exact isRefusal_of_token (exists_reading_slashOrComment c cs) _
  split
  · exact isRefusal_of_token ⟨_, rfl⟩ _
  split
  · exact isRefusal_of_token ⟨_, rfl⟩ _
  split
  · exact isRefusal_of_token ⟨_, rfl⟩ _
  · next hquote _ _ _ _ _ =>
    rintro _ ⟨⟩
    exact .character hquote

end Piece

namespace Token
variable {rest w : List Char} {k : Kind}

/-- Only names and keywords are words. -/
theorem InClass.kind_of_isWord (h : InClass rest k w) (hw : IsWord w) :
    k = .identifier ∨ Kind.ofKeyword? (String.ofList w) = some k := by
  obtain ⟨c, cs, hlist, hc, -⟩ := hw
  have hstart := isWordStart_iff.mpr hc
  have hnot {d : Char} (hd : isWordStart d = false) (hcd : d = c) : False := by
    rw [hcd, hstart] at hd
    cases hd
  cases h with
  | identifier _ => exact .inl rfl
  | keyword _ hk => exact .inr hk
  | mark hk => exact (hnot (isWordStart_of_ofChar? hk) (List.cons.inj hlist).1).elim
  | integer hds => exact (hnot (isWordStart_eq_false (hds _ List.mem_cons_self)) (List.cons.inj hlist).1).elim
  | _ => exact (hnot rfl (List.cons.inj hlist).1).elim

/-- A piece that is a token is the longest word. -/
theorem longest_cut {c : Char} {cs : List Char} (h : (cut c cs).reading = .ok k) :
    Longest k (cut c cs).taken (cut c cs).rest := by
  have hwhole := isWhole_cut c cs k h
  refine ⟨hwhole.inClass, fun k' w' rest' htext hin => ?_, fun hword => ?_⟩
  · rw [taken_append_rest] at htext
    exact (covers_of_inClass hin htext.symm).2
  · cases hk : Kind.ofKeyword? (String.ofList (cut c cs).taken) with
    | some k' => exact hwhole.keyword k' hk
    | none =>
      rcases hwhole.inClass.kind_of_isWord hword with hid | hkey
      · exact hid
      · rw [hk] at hkey
        cases hkey

end Token

/-- Some token begins at the cursor. -/
def Cursor.HasToken (pos : Cursor) : Prop := ∃ k w rest, pos.rest = w ++ rest ∧ Token.InClass rest k w

/-- The next reading is the longest word at the cursor that is in the class of its kind. If there is none, a part of the
text is refused, and at the end of the text the reading is the end of the file. -/
structure Cursor.ReadsLongest (pos : Cursor) : Prop where
  token : pos.HasToken → ∃ t, pos.next.1 = .ok t ∧ pos.rest = t.spelling ++ pos.next.2.rest ∧
    Token.Longest t.kind t.spelling pos.next.2.rest
  refusal : ¬ pos.HasToken → pos.rest ≠ [] → ∃ e, pos.next.1 = .error e ∧
    Refused pos.rest e.fault pos.next.2.rest
  ended : pos.rest = [] → ∃ t, pos.next = (.ok t, pos) ∧ t.kind = .endOfFile

theorem Cursor.readsLongest (pos : Cursor) : pos.ReadsLongest := by
  cases hrest : pos.rest with
  | nil =>
    refine ⟨?_, fun _ hne => absurd hrest hne, fun _ => ⟨_, next_of_atEnd hrest, rfl⟩⟩
    rintro ⟨k, w, rest, htext, hin⟩
    rw [hrest] at htext
    exact absurd (List.append_eq_nil_iff.mp htext.symm).1 hin.ne_nil
  | cons c cs =>
    have hnext : pos.next = (pos.reading (cut c cs), pos.after (cut c cs)) := by
      rw [next, hrest]
    have htaken := taken_append_rest c cs
    cases hreading : (cut c cs).reading with
    | ok k =>
      have hlongest := Token.longest_cut hreading
      refine ⟨fun _ => ?_, fun hno => ?_, fun hnil => ?_⟩
      · have hspelling := hlongest.inClass.spelling_token pos
        rw [← cut_eq_ofWord hreading] at hspelling
        refine ⟨pos.token k (cut c cs), ?_, ?_, ?_⟩
        · rw [hnext, reading, hreading]
        · rw [hrest, hspelling, hnext]
          exact htaken.symm
        · rw [hspelling, hnext]
          exact hlongest
      · exact absurd ⟨k, _, _, hrest.trans htaken.symm, hlongest.inClass⟩ hno
      · rw [hrest] at hnil
        cases hnil
    | error fault =>
      refine ⟨?_, fun _ _ => ?_, fun hnil => ?_⟩
      · rintro ⟨k, w, rest, htext, hin⟩
        obtain ⟨⟨k', hk'⟩, -⟩ := covers_of_inClass hin (hrest.symm.trans htext)
        rw [hreading] at hk'
        cases hk'
      · refine ⟨⟨fault, pos.line + 1, String.ofList (cut c cs).lexeme⟩, ?_, ?_⟩
        · rw [hnext, reading, hreading]
        · rw [hrest, hnext]
          exact isRefusal_cut c cs fault hreading
      · rw [hrest] at hnil
        cases hnil

namespace Token

/-- The errors among the answers of a lexer, in order. -/
def errorsOf (answers : List (Except LexError Token)) : List LexError :=
  answers.filterMap fun | .error e => some e | .ok _ => none

theorem errorsOf_eq_nil_iff {answers : List (Except LexError Token)} :
    errorsOf answers = [] ↔ ∀ e, .error e ∉ answers := by
  refine List.filterMap_eq_nil_iff.trans ⟨fun h e he => ?_, fun h a ha => ?_⟩
  · cases h _ he
  · cases a with
    | error e => exact absurd ha (h e)
    | ok t => rfl

theorem ofSource_eq_error_iff {source : String} {es : List LexError} :
    ofSource source = .error es ↔ es ≠ [] ∧ es = errorsOf (Cursor.ofString source).readings := by
  unfold ofSource errorsOf
  dsimp only
  split
  · next herrors =>
    constructor
    · rintro ⟨⟩
    · rintro ⟨hne, rfl⟩
      exact absurd herrors hne
  · next herrors =>
    constructor
    · rintro ⟨⟩
      exact ⟨herrors, rfl⟩
    · rintro ⟨-, rfl⟩
      rfl

/-- A source lexes exactly when no part of it is refused. -/
theorem exists_ofSource_eq_ok_iff {source : String} :
    (∃ ts, ofSource source = .ok ts) ↔ ∀ e, .error e ∉ (Cursor.ofString source).readings := by
  rw [← errorsOf_eq_nil_iff]
  refine ⟨fun ⟨ts, hts⟩ => ?_, fun hnil => ?_⟩
  · rw [ofSource_eq_ok_iff.mp hts]
    exact errorsOf_eq_nil_iff.mpr fun e he => by simp at he
  · cases hsource : ofSource source with
    | ok ts => exact ⟨ts, rfl⟩
    | error es =>
      obtain ⟨hne, hes⟩ := ofSource_eq_error_iff.mp hsource
      exact absurd (hes.trans hnil) hne

end Token

/-- At every place between two readings of a source, the next reading is the longest word there that is in a class of
tokens, with its kind, or if there is none a part of the text is refused. A source lexes exactly when no reading up to
its end is an error. Then its tokens are the readings, and otherwise its errors are those among the readings, in
order. -/
theorem lexer_takes_longest_word (source : String) :
    let walk := fun i => (Cursor.ofString source).advance i
    (∀ i, (walk i).ReadsLongest) ∧
      ∃ n, (∀ i, (walk i).rest = [] ↔ n ≤ i) ∧
        let answers := (List.range n).map fun i => (walk i).next.1
        ((∃ ts, Token.ofSource source = .ok ts) ↔ ∀ e, .error e ∉ answers) ∧
          (∀ ts, Token.ofSource source = .ok ts ↔ answers = ts.map .ok) ∧
            ∀ es, Token.ofSource source = .error es ↔ es ≠ [] ∧ es = Token.errorsOf answers := by
  intro walk
  obtain ⟨n, hend, hread⟩ := (Cursor.ofString source).exists_end
  rw [Cursor.steps_eq_map] at hread
  refine ⟨fun i => (walk i).readsLongest, n, hend, ?_⟩
  intro answers
  have hanswers : answers = (Cursor.ofString source).readings := hread.symm
  rw [hanswers]
  exact ⟨Token.exists_ofSource_eq_ok_iff, fun ts => Token.ofSource_eq_ok_iff,
    fun es => Token.ofSource_eq_error_iff⟩

end Monkey
