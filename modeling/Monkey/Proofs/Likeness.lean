import Monkey.Proofs.Lines
import Monkey.Proofs.References

/-! Values and stores of two runs that are alike. The runs may number their environments and identities in two
ways, and their functions may record other lines: nothing that a program computes can tell such values apart,
and alike stores stay alike under all that is done to both. -/
namespace Monkey

/-- How two runs correspond. -/
structure Likeness where
  /-- The stores that the two runs start from. -/
  first : Store
  second : Store
  /-- Two recorded lines are alike if this makes them equal. -/
  line : Nat → Nat
  /-- The environments, and the identities, of the two runs that correspond. -/
  envs : Env → Env → Prop
  ids : Nat → Nat → Prop
  envs_unique : ∀ {i j i' j' : Env}, envs i j → envs i' j' → (i = i' ↔ j = j')
  ids_unique : ∀ {m n m' n' : Nat}, ids m n → ids m' n' → (m = m' ↔ n = n')
  /-- What is made after the start corresponds in the order in which it is made. -/
  envs_later : ∀ k, envs (first.scopes.size + k) (second.scopes.size + k)
  ids_later : ∀ k, ids (first.nextId + k) (second.nextId + k)

structure Closure.Like (R : Likeness) (f g : Closure) : Prop where
  params : f.params = g.params
  body : stmtsMapLines R.line f.body = stmtsMapLines R.line g.body
  env : R.envs f.env g.env

mutual

inductive Value.Like (R : Likeness) : Value → Value → Prop where
  | integer {n : Int64} : Value.Like R (.integer n) (.integer n)
  | boolean {b : Bool} : Value.Like R (.boolean b) (.boolean b)
  | string {s : String} : Value.Like R (.string s) (.string s)
  | array {m n : Nat} {vs ws : List Value} :
      R.ids m n → ValuesLike R vs ws → Value.Like R (.array m vs) (.array n ws)
  | hash {m n : Nat} {es fs : Entries} :
      R.ids m n → EntriesLike R es fs → Value.Like R (.hash m es) (.hash n fs)
  | function {m n : Nat} {f g : Closure} :
      R.ids m n → f.Like R g → Value.Like R (.function m f) (.function n g)
  | builtin {b : Builtin} : Value.Like R (.builtin b) (.builtin b)
  | null : Value.Like R .null .null

inductive ValuesLike (R : Likeness) : List Value → List Value → Prop where
  | nil : ValuesLike R [] []
  | cons {v w : Value} {vs ws : List Value} :
      v.Like R w → ValuesLike R vs ws → ValuesLike R (v :: vs) (w :: ws)

inductive EntriesLike (R : Likeness) : Entries → Entries → Prop where
  | nil : EntriesLike R [] []
  | cons {k : Key} {v w : Value} {es fs : Entries} :
      v.Like R w → EntriesLike R es fs → EntriesLike R ((k, v) :: es) ((k, w) :: fs)

end

variable {R : Likeness} {v w v' w' : Value} {vs ws vs' ws' : List Value} {es fs : Entries}

namespace Value.Like

theorem type_eq (h : v.Like R w) : v.type = w.type := by cases h <;> rfl

theorem truthy_eq (h : v.Like R w) : v.truthy = w.truthy := by cases h <;> rfl

theorem key?_eq (h : v.Like R w) : v.key? = w.key? := by cases h <;> rfl

/-- Identities correspond one to one, so the language's equality is the same in both runs. -/
theorem identical_eq (h : v.Like R w) (h' : v'.Like R w') : v.identical v' = w.identical w' := by
  cases h with
  | array hid _ =>
    cases h' with
    | array hid' _ => simp only [identical, R.ids_unique hid hid']
    | _ => rfl
  | hash hid _ =>
    cases h' with
    | hash hid' _ => simp only [identical, R.ids_unique hid hid']
    | _ => rfl
  | function hid _ =>
    cases h' with
    | function hid' _ => simp only [identical, R.ids_unique hid hid']
    | _ => rfl
  | _ => cases h' <;> rfl

end Value.Like

theorem Closure.Like.display_eq {f g : Closure} (h : f.Like R g) : f.display = g.display := by
  rw [Closure.display, Closure.display, h.params, source_eq_of_mapLines_eq h.body]

/-! Neither identities nor lines are in the text of a value. -/

mutual

theorem Value.Like.display_eq : ∀ {v w : Value}, v.Like R w → v.display = w.display
  | _, _, .integer | _, _, .boolean | _, _, .string | _, _, .builtin | _, _, .null => rfl
  | _, _, .array _ h => by rw [Value.display, Value.display, h.displayAll_eq]
  | _, _, .hash _ h => by rw [Value.display, Value.display, h.displayEntries_eq]
  | _, _, .function _ h => by rw [Value.display, Value.display, h.display_eq]

theorem ValuesLike.displayAll_eq :
    ∀ {vs ws : List Value}, ValuesLike R vs ws → Value.displayAll vs = Value.displayAll ws
  | _, _, .nil => rfl
  | _, _, .cons h hs => by rw [Value.displayAll, Value.displayAll, h.display_eq, hs.displayAll_eq]

theorem EntriesLike.displayEntries_eq :
    ∀ {es fs : Entries}, EntriesLike R es fs → Value.displayEntries es = Value.displayEntries fs
  | _, _, .nil => rfl
  | _, _, .cons h hs => by
    rw [Value.displayEntries, Value.displayEntries, h.display_eq, hs.displayEntries_eq]

end

theorem ValuesLike.map_display_eq (h : ValuesLike R vs ws) :
    vs.map (·.display ++ "\n") = ws.map (·.display ++ "\n") := by
  induction vs generalizing ws with
  | nil =>
    cases h with
    | nil => rfl
  | cons v vs ih =>
    cases h with
    | cons h hs => rw [List.map_cons, List.map_cons, h.display_eq, ih hs]

/-! A value is like itself if all that it refers to corresponds to itself. -/

/-- What corresponds to itself. -/
def Likeness.Fixes (R : Likeness) : Ref → Prop
  | .environment i => R.envs i i
  | .identity n => R.ids n n

theorem Closure.like_self {f : Closure} (h : R.envs f.env f.env) : f.Like R f := ⟨rfl, rfl, h⟩

mutual

theorem Value.like_self : ∀ v : Value, (∀ r ∈ v.refs, R.Fixes r) → v.Like R v
  | .integer _, _ => .integer
  | .boolean _, _ => .boolean
  | .string _, _ => .string
  | .builtin _, _ => .builtin
  | .null, _ => .null
  | .function _ f, h => by
    simp only [Value.refs, List.forall_mem_cons] at h
    exact .function h.1 (f.like_self h.2.1)
  | .array _ elems, h => by
    simp only [Value.refs, List.forall_mem_cons] at h
    exact .array h.1 (ValuesLike.refl elems h.2)
  | .hash _ entries, h => by
    simp only [Value.refs, List.forall_mem_cons] at h
    exact .hash h.1 (EntriesLike.refl entries h.2)

theorem ValuesLike.refl : ∀ vs : List Value, (∀ r ∈ refsOfAll vs, R.Fixes r) → ValuesLike R vs vs
  | [], _ => .nil
  | v :: vs, h => by
    simp only [refsOfAll, List.forall_mem_append] at h
    exact .cons (v.like_self h.1) (ValuesLike.refl vs h.2)

theorem EntriesLike.refl : ∀ es : List (Key × Value), (∀ r ∈ refsOfEntries es, R.Fixes r) → EntriesLike R es es
  | [], _ => .nil
  | (_, v) :: es, h => by
    simp only [refsOfEntries, List.forall_mem_append] at h
    exact .cons (v.like_self h.1) (EntriesLike.refl es h.2)

end

/-- A value that may not be there, and `null` in its place. -/
theorem Value.Like.getD {v? w? : Option Value} (h : Option.Rel (Value.Like R) v? w?) :
    (v?.getD .null).Like R (w?.getD .null) := by
  cases h with
  | some h => exact h
  | none => exact .null

namespace ValuesLike

theorem length_eq (h : ValuesLike R vs ws) : vs.length = ws.length := by
  induction vs generalizing ws with
  | nil =>
    cases h with
    | nil => rfl
  | cons v vs ih =>
    cases h with
    | cons _ hs => exact congrArg (· + 1) (ih hs)

theorem append (h : ValuesLike R vs ws) (h' : ValuesLike R vs' ws') : ValuesLike R (vs ++ vs') (ws ++ ws') := by
  induction vs generalizing ws with
  | nil =>
    cases h with
    | nil => exact h'
  | cons v vs ih =>
    cases h with
    | cons h hs => exact .cons h (ih hs)

theorem getElem? (h : ValuesLike R vs ws) (i : Nat) : Option.Rel (Value.Like R) vs[i]? ws[i]? := by
  induction vs generalizing ws i with
  | nil =>
    cases h with
    | nil => exact .none
  | cons v vs ih =>
    cases h with
    | cons h hs =>
      cases i with
      | zero => exact .some h
      | succ i => exact ih hs i

theorem head? (h : ValuesLike R vs ws) : Option.Rel (Value.Like R) vs.head? ws.head? := by
  rw [List.head?_eq_getElem?, List.head?_eq_getElem?]
  exact h.getElem? 0

theorem getLast? (h : ValuesLike R vs ws) : Option.Rel (Value.Like R) vs.getLast? ws.getLast? := by
  rw [List.getLast?_eq_getElem?, List.getLast?_eq_getElem?, h.length_eq]
  exact h.getElem? _

end ValuesLike

namespace EntriesLike

theorem lookup (k : Key) (h : EntriesLike R es fs) : Option.Rel (Value.Like R) (es.lookup k) (fs.lookup k) := by
  induction es generalizing fs with
  | nil =>
    cases h with
    | nil => exact .none
  | cons e es ih =>
    cases h with
    | cons h hs =>
      rw [List.lookup_cons, List.lookup_cons]
      split
      · exact .some h
      · exact ih hs

theorem put (k : Key) (hv : v.Like R w) (h : EntriesLike R es fs) : EntriesLike R (es.put k v) (fs.put k w) := by
  induction es generalizing fs with
  | nil =>
    cases h with
    | nil => exact .cons hv .nil
  | cons e es ih =>
    cases h with
    | cons h hs =>
      rw [Entries.put, Entries.put]
      split
      · exact .cons hv hs
      · exact .cons h (ih hs)

end EntriesLike

structure RuntimeError.Like (R : Likeness) (e e' : RuntimeError) : Prop where
  fault : e.fault = e'.fault
  line : e.line.map R.line = e'.line.map R.line

theorem RuntimeError.Like.atLine {e e' : RuntimeError} {line line' : Nat} (h : e.Like R e')
    (hline : R.line line = R.line line') : (e.atLine line).Like R (e'.atLine line') := by
  refine ⟨h.fault, ?_⟩
  have hlines := h.line
  unfold RuntimeError.atLine
  cases he : e.line <;> cases he' : e'.line <;> simp_all

/-- Of each name there is an alike value in both scopes, or none. -/
structure Scope.Like (R : Likeness) (s s' : Scope) : Prop where
  bindings : ∀ x, Option.Rel (Value.Like R) (s.bindings.lookup x) (s'.bindings.lookup x)
  parent : Option.Rel R.envs s.parent s'.parent

/-- A scope with one binding more. -/
theorem Scope.Like.bind {s s' : Scope} (h : s.Like R s') (x : String) (hv : v.Like R w) :
    Scope.Like R { s with bindings := (x, v) :: s.bindings } { s' with bindings := (x, w) :: s'.bindings } := by
  refine ⟨fun y => ?_, h.parent⟩
  rw [List.lookup_cons, List.lookup_cons]
  split
  · exact .some hv
  · exact h.bindings y

/-- The stores of two runs at one time: as many environments and identities have been made, and the same text
has been printed. -/
structure Store.Like (R : Likeness) (st st' : Store) : Prop where
  scopes : ∀ {i j : Env}, R.envs i j → Option.Rel (Scope.Like R) st.scopes[i]? st'.scopes[j]?
  envs_made : ∃ k, st.scopes.size = R.first.scopes.size + k ∧ st'.scopes.size = R.second.scopes.size + k
  ids_made : ∃ k, st.nextId = R.first.nextId + k ∧ st'.nextId = R.second.nextId + k
  printed : ∃ text, st.output = R.first.output ++ text ∧ st'.output = R.second.output ++ text

namespace Store.Like

variable {st st' : Store} {i j : Env} {x : String}

theorem bindings (h : st.Like R st') (hij : R.envs i j) (x : String) :
    Option.Rel (Value.Like R) ((st.bindings i).lookup x) ((st'.bindings j).lookup x) := by
  have hscopes := h.scopes hij
  unfold Store.bindings
  generalize st.scopes[i]? = s at hscopes
  generalize st'.scopes[j]? = s' at hscopes
  cases hscopes with
  | none => exact .none
  | some hs => exact hs.bindings x

theorem parent? (h : st.Like R st') (hij : R.envs i j) : Option.Rel R.envs (st.parent? i) (st'.parent? j) := by
  have hscopes := h.scopes hij
  unfold Store.parent?
  generalize st.scopes[i]? = s at hscopes
  generalize st'.scopes[j]? = s' at hscopes
  cases hscopes with
  | none => exact .none
  | some hs => exact hs.parent

theorem lookup (h : st.Like R st') (x : String) {i j : Env} (hij : R.envs i j) :
    Option.Rel (Value.Like R) (st.lookup i x) (st'.lookup j x) := by
  induction i using Nat.strongRecOn generalizing j with
  | ind i ih =>
    have hbound := h.bindings hij x
    generalize hv : (st.bindings i).lookup x = v? at hbound
    generalize hw : (st'.bindings j).lookup x = w? at hbound
    cases hbound with
    | some hvw =>
      rw [lookup_of_bound hv, lookup_of_bound hw]
      exact .some hvw
    | none =>
      rw [lookup_of_unbound hv, lookup_of_unbound hw]
      have hparent := h.parent? hij
      generalize hp : st.parent? i = p? at hparent
      generalize st'.parent? j = q? at hparent
      cases hparent with
      | none => exact .none
      | some hpq => exact ih _ (parent?_lt hp) hpq

/-- An environment is there if the one that corresponds to it is. -/
theorem lt_size_iff (h : st.Like R st') (hij : R.envs i j) : i < st.scopes.size ↔ j < st'.scopes.size := by
  have hscopes := h.scopes hij
  rw [← Nat.not_le, ← Nat.not_le, ← Array.getElem?_eq_none_iff, ← Array.getElem?_eq_none_iff]
  generalize st.scopes[i]? = s at hscopes
  generalize st'.scopes[j]? = s' at hscopes
  cases hscopes <;> simp

theorem envs_next (h : st.Like R st') : R.envs st.scopes.size st'.scopes.size := by
  obtain ⟨k, hk, hk'⟩ := h.envs_made
  rw [hk, hk']
  exact R.envs_later k

theorem ids_next (h : st.Like R st') : R.ids st.nextId st'.nextId := by
  obtain ⟨k, hk, hk'⟩ := h.ids_made
  rw [hk, hk']
  exact R.ids_later k

theorem fresh (h : st.Like R st') : st.fresh.2.Like R st'.fresh.2 where
  scopes := h.scopes
  envs_made := h.envs_made
  ids_made := by
    obtain ⟨k, hk, hk'⟩ := h.ids_made
    exact ⟨k + 1, congrArg (· + 1) hk, congrArg (· + 1) hk'⟩
  printed := h.printed

theorem print (h : st.Like R st') (text : String) : (st.print text).Like R (st'.print text) where
  scopes := h.scopes
  envs_made := h.envs_made
  ids_made := h.ids_made
  printed := by
    obtain ⟨t, ht, ht'⟩ := h.printed
    refine ⟨t ++ text, ?_, ?_⟩
    · rw [Store.print, ht, String.append_assoc]
    · rw [Store.print, ht', String.append_assoc]

theorem bind (h : st.Like R st') (hij : R.envs i j) (x : String) (hv : v.Like R w) :
    (st.bind i x v).Like R (st'.bind j x w) where
  scopes {i' j'} hij' := by
    rw [getElem?_bind, getElem?_bind]
    have hscopes := h.scopes hij'
    by_cases hi : i = i'
    · rw [if_pos hi, if_pos ((R.envs_unique hij hij').mp hi)]
      generalize st.scopes[i']? = s at hscopes
      generalize st'.scopes[j']? = s' at hscopes
      cases hscopes with
      | none => exact .none
      | some hs => exact .some (hs.bind x hv)
    · rwa [if_neg hi, if_neg fun hj => hi ((R.envs_unique hij hij').mpr hj)]
  envs_made := by
    simpa only [Store.bind, Array.size_modify] using h.envs_made
  ids_made := h.ids_made
  printed := h.printed

theorem filter_parent (h : st.Like R st') {p q : Option Env} (hpq : Option.Rel R.envs p q) :
    Option.Rel R.envs (p.filter (· < st.scopes.size)) (q.filter (· < st'.scopes.size)) := by
  cases hpq with
  | none => exact .none
  | some hpq =>
    have hsize := h.lt_size_iff hpq
    simp only [Option.filter, hsize]
    split
    · exact .some hpq
    · exact .none

theorem enter (h : st.Like R st') {p q : Option Env} (hpq : Option.Rel R.envs p q) {bs cs : Bindings}
    (hb : ∀ x, Option.Rel (Value.Like R) (bs.lookup x) (cs.lookup x)) :
    (st.enter p bs).2.Like R (st'.enter q cs).2 where
  scopes {i j} hij := by
    rw [getElem?_enter, getElem?_enter]
    by_cases hi : i = st.scopes.size
    · rw [if_pos hi, if_pos ((R.envs_unique hij h.envs_next).mp hi)]
      exact .some ⟨hb, h.filter_parent hpq⟩
    · rw [if_neg hi, if_neg fun hj => hi ((R.envs_unique hij h.envs_next).mpr hj)]
      exact h.scopes hij
  envs_made := by
    obtain ⟨k, hk, hk'⟩ := h.envs_made
    refine ⟨k + 1, ?_, ?_⟩
    · simp only [Store.enter, Array.size_push, hk, Nat.add_assoc]
    · simp only [Store.enter, Array.size_push, hk', Nat.add_assoc]
  ids_made := h.ids_made
  printed := h.printed

end Store.Like
end Monkey
