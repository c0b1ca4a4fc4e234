import Monkey.Proofs.Confinement
import Monkey.Proofs.HeldValues
import Monkey.Proofs.Scopes
import Monkey.Proofs.StoreEffects

/-! A machine with its host, and all that the host can bring about: runs, calls, and environments of its own. Whatever
comes next, the environments there are stay as they are but for new bindings, and none is referred to that has not been
made. -/
namespace Monkey

/-- The values that a host has taken hold of or made, with the machine that it drives. -/
structure Host extends Machine where
  held : List Value

/-- What the task is about is held. -/
def Task.HeldBy (held : List Value) : Task → Prop
  | .evaluate _ => True
  | .call c args => (∃ v ∈ held, v.callable? = some c) ∧ ∀ v ∈ args, v ∈ held

namespace Host
open Machine

def Exists (h : Host) (env : Env) : Prop := env < h.store.scopes.size

/-- An interpreter with a global environment, which has not been told anything yet. -/
def start : Host :=
  { env := Store.start.1, depth := 0, store := Store.start.2, control := .done (.value .null), stack := [], held := [] }

/-- What can come next. While nothing is under way, the host can tell an interpreter to evaluate or to call something,
bind what it holds, make an environment and take the printed text. -/
inductive Move : Host → Host → Prop where
  | step {h : Host} {m : Machine} (hstep : h.step = some m) : Move h { toMachine := m, held := h.held }
  | take {h : Host} {v : Value} (hv : h.Has h.held v) : Move h { h with held := v :: h.held }
  /-- An array or a hash of held values, or a function in an environment that exists. -/
  | make {h : Host} {v : Value} (hidle : h.step = none) (hchildren : ∀ w ∈ v.children, w ∈ h.held)
      (henv : ∀ id f, v = .function id f → h.Exists f.env) :
      Move h { h with store := h.store.fresh.2, held := v :: h.held }
  | tell {h : Host} {i : Interpreter} {t : Task} (hidle : h.step = none) (hstore : i.store = h.store)
      (henv : h.Exists i.env) (ht : t.HeldBy h.held) : Move h { toMachine := i.start t, held := h.held }
  | bind {h : Host} {env : Env} {x : String} {v : Value} (hidle : h.step = none) (hv : v ∈ h.held) :
      Move h { h with store := h.store.bind env x v }
  /-- A global environment, or one that is empty, inside of another one if there is to be one around it. -/
  | enter {h : Host} {parent : Option Env} {bindings : Bindings} (hidle : h.step = none)
      (hparent : ∀ env ∈ parent, h.Exists env) (hbindings : bindings = [] ∨ bindings = Store.globals) :
      Move h { h with store := (h.store.enter parent bindings).2 }
  | flush {h : Host} (hidle : h.step = none) : Move h { h with store := h.store.flush.2 }

abbrev Later : Host → Host → Prop := Relation.ReflTransGen Move

variable {h h' : Host}

theorem later_of_steps {m m' : Machine} (hsteps : Steps m m') (held : List Value) :
    Later { toMachine := m, held } { toMachine := m', held } := by
  induction hsteps with
  | refl => exact .refl
  | tail _ hstep ih => exact ih.tail (.step hstep)

/-! What becomes of the environments. -/

theorem Move.grows (hmove : Move h h') : h.store.Grows (fun _ _ => True) h'.store := by
  cases hmove with
  | step hstep => exact (effect_of_step hstep).grows
  | take | make | flush => exact Store.grows_of_scopes rfl
  | tell _ hstore => exact Store.grows_of_scopes (congrArg Store.scopes hstore)
  | bind => exact Store.grows_bind _ _ _ trivial
  | enter => exact Store.grows_enter _ _

theorem Later.grows (hlater : Later h h') : h.store.Grows (fun _ _ => True) h'.store := by
  induction hlater with
  | refl => exact Store.grows_of_scopes rfl
  | tail _ hmove ih => exact ih.trans hmove.grows

theorem Later.exists (hlater : Later h h') {env : Env} (henv : h.Exists env) : h'.Exists env :=
  hlater.grows.lt_size henv

/-- One environment is made at a time. -/
theorem Move.size_le (hmove : Move h h') : h'.store.scopes.size ≤ h.store.scopes.size + 1 := by
  cases hmove with
  | step hstep => exact (effect_of_step hstep).size_le
  | take | make | flush => exact Nat.le_succ _
  | tell _ hstore => exact Nat.le_succ_of_le (Nat.le_of_eq (congrArg (·.scopes.size) hstore))
  | bind => simp [Store.bind]
  | enter => simp [Store.enter]

/-! The functions that a state has are confined to the environments that exist. -/

def existing (st : Store) : Bounds := ⟨(· < st.scopes.size), id⟩

/-- All environments that the machine, its functions and those of the host refer to exist. -/
structure Contained (h : Host) : Prop where
  machine : Confined (existing h.store) h.toMachine
  held : ∀ v ∈ h.held, (existing h.store).Covers v.closures

theorem covers_children {b : Bounds} {v w : Value} (hv : b.Covers v.closures) (hw : w ∈ v.children) :
    b.Covers w.closures := by
  cases v with
  | array id elems => exact hv.subset (closures_subset_of_mem hw)
  | hash id entries =>
    obtain ⟨e, he, rfl⟩ := List.mem_map.mp hw
    exact hv.subset fun f hf => mem_closuresOfEntries.mpr ⟨e, he, hf⟩
  | _ => cases hw

theorem covers_of_children {b : Bounds} {v : Value} (hchildren : ∀ w ∈ v.children, b.Covers w.closures)
    (hfunction : ∀ id f, v = .function id f → f.Confined b) : b.Covers v.closures := by
  intro f hf
  cases v with
  | array id elems =>
    obtain ⟨w, hw, hf⟩ := mem_closuresOfAll.mp hf
    exact hchildren w hw f hf
  | hash id entries =>
    obtain ⟨e, he, hf⟩ := mem_closuresOfEntries.mp hf
    exact hchildren e.2 (List.mem_map_of_mem he) f hf
  | function id g =>
    obtain rfl := List.mem_singleton.mp hf
    exact hfunction id f rfl
  | _ => cases hf

theorem closures_subset_of_mem_values {p : Pending} {v : Value} (hv : v ∈ p.values) : v.closures ⊆ p.closures := by
  cases p with
  | right op w | subscript w =>
    obtain rfl := List.mem_singleton.mp hv
    exact List.Subset.refl _
  | item use done rest =>
    cases use with
    | arguments c => exact List.subset_append_of_subset_right _ (closures_subset_of_mem hv)
    | elements => exact closures_subset_of_mem hv
  | key entries value rest | entry entries k rest =>
    obtain ⟨e, he, rfl⟩ := List.mem_map.mp hv
    exact fun f hf => mem_closuresOfEntries.mpr ⟨e, he, hf⟩
  | _ => cases hv

theorem Has.covers {b : Bounds} {m : Machine} {held : List Value} {v : Value} (hv : m.Has held v) (hm : Confined b m)
    (hheld : ∀ w ∈ held, b.Covers w.closures) : b.Covers v.closures := by
  induction hv with
  | bound hx => exact hm.store _ _ _ hx
  | @current v hv =>
    have hcontrol := hm.control
    cases hc : m.control with
    | task t =>
      rw [hc] at hcontrol hv
      cases t with
      | evaluate n => cases hv
      | call c args => exact hcontrol.subset (List.subset_append_of_subset_right _ (closures_subset_of_mem hv))
    | find x env =>
      rw [hc] at hv
      cases hv
    | done o =>
      rw [hc] at hcontrol hv
      cases o with
      | error e => cases hv
      | value w | returned w =>
        obtain rfl := List.mem_singleton.mp hv
        exact hcontrol
  | @waiting f v hf hv =>
    have hframe := hm.stack _ hf
    cases f with
    | node n => cases hv
    | body env => cases hv
    | pending p =>
      exact hframe.closures.subset (closures_subset_of_mem_values hv)
  | held hv => exact hheld _ hv
  | inside _ hw ih => exact covers_children ih hw

theorem confined_id {env : Env → Prop} (n : Node) : n.Confined ⟨env, id⟩ := by
  cases n with
  | expr e => exact e.mapLines_id
  | stmt s => exact s.mapLines_id
  | block ss => exact stmtsMapLines_id ss

theorem covers_callable {b : Bounds} {held args : List Value} {c : Callable}
    (hheld : ∀ v ∈ held, b.Covers v.closures) (ht : (Task.call c args).HeldBy held) :
    b.Covers (c.closures ++ closuresOfAll args) := by
  obtain ⟨⟨v, hv, hc⟩, hargs⟩ := ht
  have hcallee : b.Covers c.closures := closures_of_callable? hc ▸ hheld v hv
  refine hcallee.append fun f hf => ?_
  obtain ⟨w, hw, hf⟩ := mem_closuresOfAll.mp hf
  exact hheld w (hargs w hw) f hf

theorem contained_start : start.Contained where
  machine := ⟨⟨Nat.zero_lt_one, Store.covers_start _, List.forall_mem_nil _⟩, Bounds.Covers.nil⟩
  held := List.forall_mem_nil _

theorem Contained.move (hc : h.Contained) (hmove : Move h h') : h'.Contained := by
  -- The environments that existed still do, so what was contained is so in the new state too.
  have hle {env : Env} (henv : env < h.store.scopes.size) : env < h'.store.scopes.size := hmove.grows.lt_size henv
  have hm : Confined (existing h'.store) h.toMachine := hc.machine.mono fun _ => hle
  have hheld : ∀ v ∈ h.held, (existing h'.store).Covers v.closures := fun v hv => (hc.held v hv).mono fun _ => hle
  cases hmove with
  | step hstep => exact ⟨hm.step hstep (fun _ _ henv hp => Nat.lt_trans (Store.parent?_lt hp) henv) id, hheld⟩
  | take hv => exact ⟨hm, List.forall_mem_cons.mpr ⟨Has.covers hv hm hheld, hheld⟩⟩
  | make _ hchildren henv =>
    have hv := covers_of_children (fun w hw => hheld w (hchildren w hw)) fun id f hf => ⟨henv id f hf, stmtsMapLines_id _⟩
    exact ⟨hm.withStore (hm.store.of_scopes rfl), List.forall_mem_cons.mpr ⟨hv, hheld⟩⟩
  | @tell i t _ hstore henv ht =>
    refine ⟨⟨⟨hle henv, ?_, List.forall_mem_nil _⟩, ?_⟩, hheld⟩
    · exact hm.store.of_scopes (congrArg Store.scopes hstore)
    · cases t with
      | evaluate n => exact confined_id n
      | call c args => exact covers_callable hheld ht
  | bind _ hv => exact ⟨hm.withStore (hm.store.bind (hheld _ hv)), hheld⟩
  | @enter parent bindings _ _ hbindings =>
    have hb : ∀ x ∈ bindings, (existing (h.store.enter parent bindings).2).Covers x.2.closures := by
      rcases hbindings with rfl | rfl
      · exact List.forall_mem_nil _
      · exact fun _ => Bounds.Covers.globals
    exact ⟨hm.withStore (hm.store.enter hb), hheld⟩
  | flush => exact ⟨hm.withStore (hm.store.of_scopes rfl), hheld⟩

theorem Contained.later (hc : h.Contained) (hlater : Later h h') : h'.Contained := by
  induction hlater with
  | refl => exact hc
  | tail _ hmove ih => exact ih.move hmove

end Host
end Monkey
