import Monkey.Proofs.Lexes

/-! The classes of tokens, said of texts, and what a piece has to do with them: the lexer cuts a word of a class off
where the class would not go on. -/
namespace Monkey
open Token (Kind)
open Piece

namespace Token

/-- Names and keywords: an ASCII letter or an underscore, then ASCII letters, digits and underscores. -/
def IsWord (w : List Char) : Prop :=
  ∃ c cs, w = c :: cs ∧ (c.isAlpha ∨ c = '_') ∧ ∀ d ∈ cs, d.isAlphanum ∨ d = '_'

/-- `InClass rest k w`: the text `w` is in the class of the tokens of kind `k` where `rest` comes after it. Only the
class of comments asks what comes after, for a comment ends where its line does. -/
inductive InClass (rest : List Char) : Kind → List Char → Prop where
  | mark {c : Char} {k : Kind} : Kind.ofChar? c = some k → InClass rest k [c]
  | bang : InClass rest .bang ['!']
  | bangEqual : InClass rest .bangEqual ['!', '=']
  | equal : InClass rest .equal ['=']
  | equalEqual : InClass rest .equalEqual ['=', '=']
  | slash : InClass rest .slash ['/']
  | comment {inside : List Char} : '\n' ∉ inside → (∀ c ∈ rest.head?, c = '\n') →
      InClass rest .comment ('/' :: '/' :: inside)
  | string {inside : List Char} : (∀ c ∈ inside, c ≠ '"' ∧ c ≠ '\n') →
      InClass rest .string ('"' :: (inside ++ ['"']))
  | integer {d : Char} {ds : List Char} : (∀ c ∈ d :: ds, c.isDigit) → InClass rest .integer (d :: ds)
  | identifier {w : List Char} : IsWord w → InClass rest .identifier w
  | keyword {w : List Char} {k : Kind} : IsWord w → Kind.ofKeyword? (String.ofList w) = some k → InClass rest k w

/-- Whether a token of the kind would go on with the character `c`. -/
def Kind.goesOn (k : Kind) (c : Char) : Bool :=
  match k with
  | .bang | .equal => c = '='
  | .slash => c = '/'
  | .comment => c ≠ '\n'
  | .integer => c.isDigit
  | .identifier | .elseWord | .falseWord | .fnWord | .ifWord | .letWord | .returnWord | .trueWord => isWordPart c
  | _ => false

/-- The word `w` before `rest` is a whole token of kind `k`: it is in the class of the kind, the class does not go on
into `rest`, and if the word is a keyword then the kind is that keyword's. -/
structure Whole (k : Kind) (w rest : List Char) : Prop where
  inClass : InClass rest k w
  ends : ∀ c ∈ rest.head?, k.goesOn c = false
  keyword : ∀ k', Kind.ofKeyword? (String.ofList w) = some k' → k = k'

variable {rest : List Char} {k : Kind} {w : List Char}

theorem Kind.goesOn_of_ofChar? {c : Char} (h : Kind.ofChar? c = some k) (d : Char) : k.goesOn d = false := by
  unfold Kind.ofChar? at h
  split at h <;> cases h <;> rfl

theorem Kind.goesOn_of_ofKeyword? {x : String} (h : Kind.ofKeyword? x = some k) (d : Char) :
    k.goesOn d = isWordPart d := by
  unfold Kind.ofKeyword? at h
  split at h <;> cases h <;> rfl

theorem isWordStart_of_ofChar? {c : Char} (h : Kind.ofChar? c = some k) : isWordStart c = false := by
  refine Bool.eq_false_iff.mpr fun hstart => ?_
  rw [ofChar?_of_isWordPart (isWordPart_of_isWordStart hstart)] at h
  cases h

theorem isWordStart_of_ofKeyword? (h : Kind.ofKeyword? (String.ofList w) = some k) :
    ∃ c ∈ w.head?, isWordStart c = true := by
  have hlist : (String.ofList w).toList = w := String.toList_ofList
  rw [← hlist]
  generalize String.ofList w = x at h
  unfold Kind.ofKeyword? at h
  split at h <;> cases h <;> exact ⟨_, rfl, rfl⟩

/-- Only words can be keywords. -/
theorem Whole.of_head {c : Char} (hin : InClass rest k w) (hends : ∀ d ∈ rest.head?, k.goesOn d = false)
    (hhead : w.head? = some c) (hc : isWordStart c = false) : Whole k w rest := by
  refine ⟨hin, hends, fun k' hk' => ?_⟩
  obtain ⟨d, hd, hstart⟩ := isWordStart_of_ofKeyword? hk'
  obtain rfl := Option.some.inj (hhead.symm.trans hd)
  rw [hc] at hstart
  cases hstart

/-- No token goes on behind its line. -/
theorem Kind.goesOn_newline (k : Kind) : k.goesOn '\n' = false := by cases k <;> rfl

/-- A whole token is one before any text into which it does not go on. -/
theorem Whole.before {rest' : List Char} (h : Whole k w rest)
    (hends : ∀ c ∈ rest'.head?, k.goesOn c = false) : Whole k w rest' := by
  refine ⟨?_, hends, h.keyword⟩
  cases h.inClass with
  | mark hk => exact .mark hk
  | bang => exact .bang
  | bangEqual => exact .bangEqual
  | equal => exact .equal
  | equalEqual => exact .equalEqual
  | slash => exact .slash
  | comment hinside => exact .comment hinside fun c hc => by simpa [Kind.goesOn] using hends c hc
  | string hinside => exact .string hinside
  | integer hds => exact .integer hds
  | identifier hword => exact .identifier hword
  | keyword hword hk => exact .keyword hword hk

end Token

namespace Piece
open Token

/-- The kinds whose lexemes do not matter. -/
abbrev Plain (k : Kind) : Prop := k ≠ .identifier ∧ k ≠ .string ∧ k ≠ .integer

theorem plain_of_ofChar? {c : Char} {k : Kind} (h : Kind.ofChar? c = some k) : Plain k := by
  unfold Kind.ofChar? at h
  split at h <;> cases h <;> decide

theorem plain_of_ofKeyword? {x : String} {k : Kind} (h : Kind.ofKeyword? x = some k) : Plain k := by
  unfold Kind.ofKeyword? at h
  split at h <;> cases h <;> decide

variable {c : Char} {cs rest w : List Char} {k : Kind}

/-- The piece that is the word `w` of kind `k`. -/
def ofWord (k : Kind) (w rest : List Char) : Piece :=
  if k = .string then { reading := .ok k, opening := ['"'], lexeme := w.tail.dropLast, closing := ['"'], rest }
  else { reading := .ok k, lexeme := w, rest }

theorem ofWord_of_ne (h : k ≠ .string) (w rest : List Char) :
    ofWord k w rest = { reading := .ok k, lexeme := w, rest } := if_neg h

theorem isStringPart_iff {c : Char} : isStringPart c = true ↔ c ≠ '"' ∧ c ≠ '\n' := by
  simp [isStringPart]

theorem isWordPart_iff {c : Char} : isWordPart c = true ↔ c.isAlphanum ∨ c = '_' := by
  simp [isWordPart]

theorem isWordStart_iff {c : Char} : isWordStart c = true ↔ c.isAlpha ∨ c = '_' := by
  simp [isWordStart]

theorem pair_of_stop {next : Char} (long short : Kind) (c : Char) (h : ∀ d ∈ cs.head?, d ≠ next) :
    pair next long short c cs = single (.ok short) c cs := by
  cases cs with
  | nil => rfl
  | cons d cs => exact if_neg (h d rfl)

theorem slashOrComment_of_stop (c : Char) (h : ∀ d ∈ cs.head?, d ≠ '/') :
    slashOrComment c cs = single (.ok .slash) c cs := by
  cases cs with
  | nil => rfl
  | cons d cs => exact if_neg (h d rfl)

theorem slashOrComment_comment {inside : List Char} (h : '\n' ∉ inside) (hrest : ∀ d ∈ rest.head?, d = '\n') :
    slashOrComment '/' ('/' :: (inside ++ rest)) =
      { reading := .ok .comment, lexeme := '/' :: '/' :: inside, rest } := by
  have hinside : inside.all (· ≠ '\n') = true := by
    refine List.all_eq_true.mpr fun d hd => decide_eq_true ?_
    rintro rfl
    exact h hd
  obtain ⟨htake, hdrop⟩ := takeWhile_append_stop (p := (· ≠ '\n')) hinside fun d hd => by simp [hrest d hd]
  rw [slashOrComment, if_pos rfl, htake, hdrop]

theorem cut_of_isWord (hw : IsWord w) (hrest : EndsWord rest) (htext : c :: cs = w ++ rest) :
    cut c cs = { reading := .ok (wordKind w), lexeme := w, rest } := by
  obtain ⟨d, ds, rfl, hd, hds⟩ := hw
  rw [List.cons_append] at htext
  obtain ⟨rfl, rfl⟩ := List.cons.inj htext
  exact cut_word (isWordStart_iff.mpr hd) (List.all_eq_true.mpr fun e he => isWordPart_iff.mpr (hds e he)) hrest

/-- A whole token is cut off. -/
theorem cut_of_whole (h : Whole k w rest) (hw : c :: cs = w ++ rest) : cut c cs = ofWord k w rest := by
  obtain ⟨hin, hends, hkey⟩ := h
  cases hin with
  | mark hk =>
    obtain ⟨rfl, rfl⟩ := List.cons.inj hw
    rw [ofWord_of_ne (plain_of_ofChar? hk).2.1]
    exact cut_mark _ hk
  | bang =>
    obtain ⟨rfl, rfl⟩ := List.cons.inj hw
    exact pair_of_stop _ _ _ fun d hd => of_decide_eq_false (hends d hd)
  | bangEqual =>
    obtain ⟨rfl, rfl⟩ := List.cons.inj hw
    rfl
  | equal =>
    obtain ⟨rfl, rfl⟩ := List.cons.inj hw
    exact pair_of_stop _ _ _ fun d hd => of_decide_eq_false (hends d hd)
  | equalEqual =>
    obtain ⟨rfl, rfl⟩ := List.cons.inj hw
    rfl
  | slash =>
    obtain ⟨rfl, rfl⟩ := List.cons.inj hw
    exact slashOrComment_of_stop _ fun d hd => of_decide_eq_false (hends d hd)
  | comment hinside hrest =>
    obtain ⟨rfl, rfl⟩ := List.cons.inj hw
    exact slashOrComment_comment hinside hrest
  | string hinside =>
    rw [List.cons_append, List.append_assoc] at hw
    obtain ⟨rfl, rfl⟩ := List.cons.inj hw
    have hall := List.all_eq_true.mpr fun d hd => isStringPart_iff.mpr (hinside d hd)
    refine (cut_string rest hall).trans ?_
    simp [ofWord]
  | integer hds =>
    rw [List.cons_append] at hw
    obtain ⟨rfl, rfl⟩ := List.cons.inj hw
    obtain ⟨hd, hds⟩ := List.forall_mem_cons.mp hds
    exact cut_digits hd (List.all_eq_true.mpr hds) hends
  | identifier hword =>
    have hkind : wordKind w = .identifier := by
      rw [wordKind]
      cases hk : Kind.ofKeyword? (String.ofList w) with
      | none => rfl
      | some k' => exact (hkey k' hk).symm
    rw [cut_of_isWord hword hends hw, hkind]
    rfl
  | keyword hword hk =>
    have hrest : EndsWord rest := fun d hd => (Kind.goesOn_of_ofKeyword? hk d).symm.trans (hends d hd)
    rw [cut_of_isWord hword hrest hw, wordKind, hk, ofWord_of_ne (plain_of_ofKeyword? hk).2.1]
    rfl

/-- If the piece is a token, it is a whole one. -/
def IsWhole (p : Piece) : Prop := ∀ k, p.reading = .ok k → Whole k p.taken p.rest

theorem eq_false_of_head?_dropWhile {p : Char → Bool} {cs : List Char} :
    ∀ d ∈ (cs.dropWhile p).head?, p d = false := by
  intro d hd
  have hstop := List.head?_dropWhile_not p cs
  rw [hd] at hstop
  exact hstop

theorem of_mem_takeWhile {p : Char → Bool} {cs : List Char} : ∀ d ∈ cs.takeWhile p, p d = true :=
  List.all_eq_true.mp List.all_takeWhile

theorem isWhole_single (hc : isWordStart c = false) (hin : InClass cs k [c])
    (hends : ∀ d ∈ cs.head?, k.goesOn d = false) : (single (.ok k) c cs).IsWhole := by
  rintro _ ⟨⟩
  exact .of_head hin hends rfl hc

theorem isWhole_pair {long short : Kind} {next : Char} (hc : isWordStart c = false)
    (hshort : InClass cs short [c]) (hlong : ∀ rest, InClass rest long [c, next])
    (hstop : ∀ d, short.goesOn d = decide (d = next)) (hlongStop : ∀ d, long.goesOn d = false) :
    (pair next long short c cs).IsWhole := by
  cases cs with
  | nil => exact isWhole_single hc hshort nofun
  | cons d cs =>
    rw [pair]
    split
    · next hd =>
      rintro _ ⟨⟩
      rw [hd]
      exact .of_head (hlong cs) (fun e _ => hlongStop e) rfl hc
    · next hd =>
      refine isWhole_single hc hshort fun e he => ?_
      obtain rfl := Option.some.inj he
      exact (hstop d).trans (decide_eq_false hd)

theorem isWhole_slashOrComment (cs : List Char) : (slashOrComment '/' cs).IsWhole := by
  cases cs with
  | nil => exact isWhole_single rfl .slash nofun
  | cons d cs =>
    rw [slashOrComment]
    split
    · next hd =>
      rintro _ ⟨⟩
      have hinside : '\n' ∉ cs.takeWhile (· ≠ '\n') := fun hn => of_decide_eq_true (of_mem_takeWhile _ hn) rfl
      have hrest : ∀ e ∈ (cs.dropWhile (· ≠ '\n')).head?, e = '\n' :=
        fun e he => by simpa using eq_false_of_head?_dropWhile e he
      have hin := InClass.comment hinside hrest
      simp only [taken, hd, List.nil_append, List.append_nil]
      exact .of_head hin eq_false_of_head?_dropWhile rfl rfl
    · next hd =>
      refine isWhole_single rfl .slash fun e he => ?_
      obtain rfl := Option.some.inj he
      exact decide_eq_false hd

theorem isWhole_string (cs : List Char) : (string '"' cs).IsWhole := by
  rw [string]
  split
  · rintro _ ⟨⟩
  · next d rest _ =>
    split
    · next hd =>
      rintro _ ⟨⟩
      have hin : InClass rest .string ('"' :: (cs.takeWhile isStringPart ++ ['"'])) :=
        .string fun e he => isStringPart_iff.mp (of_mem_takeWhile e he)
      rw [hd]
      exact .of_head hin (fun _ _ => rfl) rfl rfl
    · rintro _ ⟨⟩

theorem isWhole_word (hc : isWordStart c = true) (cs : List Char) : (word c cs).IsWhole := by
  rintro _ ⟨⟩
  have hword : IsWord (c :: cs.takeWhile isWordPart) :=
    ⟨c, _, rfl, isWordStart_iff.mp hc, fun d hd => isWordPart_iff.mp (of_mem_takeWhile d hd)⟩
  have htaken : (word c cs).taken = c :: cs.takeWhile isWordPart := List.append_nil _
  rw [htaken, wordKind]
  cases hk : Kind.ofKeyword? (String.ofList (c :: cs.takeWhile isWordPart)) with
  | none =>
    refine ⟨.identifier hword, eq_false_of_head?_dropWhile, fun k' hk' => ?_⟩
    rw [hk] at hk'
    cases hk'
  | some k =>
    refine ⟨.keyword hword hk, fun d hd => ?_, fun k' hk' => Option.some.inj (hk.symm.trans hk')⟩
    exact (Kind.goesOn_of_ofKeyword? hk d).trans (eq_false_of_head?_dropWhile d hd)

theorem isWhole_digits (hc : c.isDigit = true) (cs : List Char) : (digits c cs).IsWhole := by
  rintro _ ⟨⟩
  have htaken : (digits c cs).taken = c :: cs.takeWhile Char.isDigit := List.append_nil _
  have hdigits : ∀ d ∈ c :: cs.takeWhile Char.isDigit, d.isDigit = true :=
    List.forall_mem_cons.mpr ⟨hc, of_mem_takeWhile⟩
  rw [htaken]
  exact .of_head (.integer hdigits) eq_false_of_head?_dropWhile rfl (isWordStart_eq_false hc)

/-- A piece that is a token is a whole one. -/
theorem isWhole_cut (c : Char) (cs : List Char) : (cut c cs).IsWhole := by
  unfold cut
  split
  · next hc =>
    subst hc
    exact isWhole_pair rfl .bang (fun _ => .bangEqual) (fun _ => rfl) (fun _ => rfl)
  split
  · next hc =>
    subst hc
    exact isWhole_pair rfl .equal (fun _ => .equalEqual) (fun _ => rfl) (fun _ => rfl)
  split
  · next hc =>
    subst hc
    exact isWhole_string cs
  split
  · next hc =>
    subst hc
    exact isWhole_slashOrComment cs
  split
  · next hk => exact isWhole_single (isWordStart_of_ofChar? hk) (.mark hk) fun d _ => Kind.goesOn_of_ofChar? hk d
  split
  · next hc => exact isWhole_word hc cs
  split
  · next hc => exact isWhole_digits hc cs
  · rintro _ ⟨⟩

theorem cut_eq_ofWord (h : (cut c cs).reading = .ok k) : cut c cs = ofWord k (cut c cs).taken (cut c cs).rest :=
  cut_of_whole (isWhole_cut c cs k h) (taken_append_rest c cs).symm

end Piece
end Monkey
