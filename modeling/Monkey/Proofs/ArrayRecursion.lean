import Monkey.Proofs.CallDepth
import Monkey.Proofs.NodeRules
import Monkey.Proofs.OwnBindings

/-! A recursion over an array. The text below sums up the elements of `a` by a function that calls itself with the
rest of the array: it counts every element once, and needs one call more than there are elements. -/
namespace Monkey

def sumText : String :=
  "let sum = fn(arr, acc) \x7b if (len(arr) == 0) \x7b acc \x7d " ++
    "else \x7b sum(rest(arr), acc + first(arr)) \x7d \x7d; sum(a, 0)"

def sumBody : Block :=
  [.expression (.conditional
    (.binary 1 .equal (.call 1 (.name 1 "len") [.name 1 "arr"]) (.literal (.integer 0)))
    [.expression (.name 1 "acc")]
    (some [.expression (.call 1 (.name 1 "sum")
      [.call 1 (.name 1 "rest") [.name 1 "arr"],
        .binary 1 .add (.name 1 "acc") (.call 1 (.name 1 "first") [.name 1 "arr"])])]))]

def sumProgram : Program :=
  [.binding "sum" (.function ["arr", "acc"] sumBody),
    .expression (.call 1 (.name 1 "sum") [.name 1 "a", .literal (.integer 0)])]

def sumClosure (env : Env) : Closure := ⟨["arr", "acc"], sumBody, env⟩

/-- How a source is read depends on its characters only. -/
theorem Program.ofSource_of_toList {source : String} {cs : List Char} {p : Program} (hcs : source.toList = cs)
    (hread : let us := (Cursor.readings ⟨cs, 0, 0⟩).filterMap Except.toOption
      Cursor.readings ⟨cs, 0, 0⟩ = us.map .ok ∧
        (ofTokens? (us.filter fun t => !t.kind.isLayout)).toOption = some p) : ofSource source = .ok p := by
  obtain ⟨hus, hp⟩ := hread
  have htokens := Token.significant_eq_ok_iff.mpr ⟨_, by rw [Cursor.ofString, hcs, ← hus], rfl⟩
  rw [ofSource, htokens]
  dsimp only
  generalize ofTokens? _ = result at hp ⊢
  cases result with
  | error errors => cases hp
  | ok q => exact congrArg Except.ok (Option.some.inj hp)

/-- The kernel reads the characters of the text, which are those of its two literals; to unfold the rules of the lexer
and the parser step by step would take too long here. -/
theorem ofSource_sumText : Program.ofSource sumText = .ok sumProgram := by
  refine Program.ofSource_of_toList
    (String.toList_append.trans (congrArg₂ _ String.toList_ofList String.toList_ofList)) ?_
  decide +kernel

namespace Store

variable {st st' : Store} {env : Env}

/-- A new environment inside of one that is there: what it does not bind itself is looked up in that one. -/
theorem lookup_enter_outer (hsize : env < st.scopes.size) {bindings : Bindings} {x : String} {v : Value}
    (hown : bindings.lookup x = none) (h : (st.bindings env).lookup x = some v) :
    (st.enter (some env) bindings).2.lookup st.scopes.size x = some v := by
  have hparent : (st.enter (some env) bindings).2.parent? st.scopes.size = some env := by
    simp [parent?, getElem?_enter, hsize]
  have hunbound : ((st.enter (some env) bindings).2.bindings st.scopes.size).lookup x = none := by
    simpa [Store.bindings, getElem?_enter] using hown
  rw [lookup_of_unbound hunbound, hparent]
  refine lookup_of_bound ?_
  rwa [Store.bindings, getElem?_enter, if_neg (Nat.ne_of_lt hsize)]

theorem lookup_enter_own {parent : Option Env} {bindings : Bindings} {x : String} {v : Value}
    (h : bindings.lookup x = some v) : (st.enter parent bindings).2.lookup st.scopes.size x = some v := by
  refine lookup_of_bound ?_
  simpa [Store.bindings, getElem?_enter] using h

/-- The environment binds `sum`, and the builtins. -/
structure BindsSum (st : Store) (env : Env) : Prop where
  size : env < st.scopes.size
  sum : ∃ id, (st.bindings env).lookup "sum" = some (.function id (sumClosure env))
  builtin (b : Builtin) : (st.bindings env).lookup b.name = some (.builtin b)

/-- What the names in the body of `sum` stand for. -/
structure SeesSum (st : Store) (outer env : Env) (arr : Value) (acc : Int64) : Prop where
  arr : st.lookup env "arr" = some arr
  acc : st.lookup env "acc" = some (.integer acc)
  sum : ∃ id, st.lookup env "sum" = some (.function id (sumClosure outer))
  builtin (b : Builtin) : st.lookup env b.name = some (.builtin b)

/-- The store in which the body of `sum` is evaluated. -/
def enterSum (st : Store) (env : Env) (arr : Value) (acc : Int64) : Store :=
  (st.enter (some env) [("acc", .integer acc), ("arr", arr)]).2

namespace BindsSum

theorem fresh (h : st.BindsSum env) : st.fresh.2.BindsSum env := ⟨h.size, h.sum, h.builtin⟩

theorem enter (h : st.BindsSum env) (arr : Value) (acc : Int64) : (st.enterSum env arr acc).BindsSum env := by
  have hsame : (st.enterSum env arr acc).bindings env = st.bindings env := by
    rw [Store.bindings, enterSum, getElem?_enter, if_neg (Nat.ne_of_lt h.size), Store.bindings]
  have hsize : env < (st.enterSum env arr acc).scopes.size := by
    simpa [enterSum, Store.enter] using Nat.lt_succ_of_lt h.size
  exact ⟨hsize, hsame ▸ h.sum, hsame ▸ h.builtin⟩

theorem sees (h : st.BindsSum env) (arr : Value) (acc : Int64) :
    (st.enterSum env arr acc).SeesSum env st.scopes.size arr acc where
  arr := lookup_enter_own rfl
  acc := lookup_enter_own rfl
  sum := h.sum.imp fun _ => lookup_enter_outer h.size rfl
  builtin b := lookup_enter_outer h.size (by cases b <;> rfl) (h.builtin b)

end BindsSum
end Store

namespace Run

variable {x : Run Value} {st st' : Store} {line : Nat}

theorem atLine_catchReturn_of_ok {v : Value} (h : x st = .ok v st') : atLine line (catchReturn x) st = .ok v st' := by
  simp only [atLine, catchReturn, h]

/-- An error that has its line leaves a call as it is. -/
theorem atLine_catchReturn_of_error {fault : RuntimeFault} {known : Nat}
    (h : x st = .error (.error ⟨fault, some known⟩) st') :
    atLine line (catchReturn x) st = .error (.error ⟨fault, some known⟩) st' := by
  simp only [atLine, catchReturn, h]
  rfl

end Run

namespace Eval
open Run Store

/-- A call of `sum` with an array of integers. -/
def callSum (left : Nat) (env : Env) (id : Nat) (ns : List Int64) (acc : Int64) : Run Value :=
  atLine 1 (apply left (sumClosure env) [.array id (ns.map .integer), .integer acc])

section
variable {apply : Apply} {st st' : Store} {outer env : Env} {id : Nat} {ns : List Int64} {acc : Int64}

theorem expr_of_arr (apply : Apply) (b : Builtin) {v : Value}
    (h : st.SeesSum outer env (.array id (ns.map .integer)) acc)
    (hv : b.apply [.array id (ns.map .integer)] st = .ok v st') :
    expr apply env (.call 1 (.name 1 b.name) [.name 1 "arr"]) st = .ok v st' :=
  (expr_call_builtin (expr_name (h.builtin b)) (exprs_cons (expr_name h.arr) exprs_nil)).trans (atLine_of_ok 1 hv)

theorem ofNat_eq_zero {n : Nat} (hn : n < 2 ^ 64) : Int64.ofNat n = 0 ↔ n = 0 := by
  rw [← Int64.toBitVec_inj, Int64.toBitVec_ofNat', Int64.toBitVec_zero, ← BitVec.toNat_inj, BitVec.toNat_ofNat,
    Nat.mod_eq_of_lt hn]
  rfl

theorem expr_isEmpty (apply : Apply) (h : st.SeesSum outer env (.array id (ns.map .integer)) acc)
    (hns : ns.length < 2 ^ 64) :
    expr apply env (.binary 1 .equal (.call 1 (.name 1 "len") [.name 1 "arr"]) (.literal (.integer 0))) st =
      .ok (.boolean ns.isEmpty) st := by
  have hlen : expr apply env (.call 1 (.name 1 "len") [.name 1 "arr"]) st =
      .ok (.integer (Int64.ofNat (ns.map Value.integer).length)) st := expr_of_arr apply .len h rfl
  have hempty : decide (Int64.ofNat (ns.map Value.integer).length = 0) = ns.isEmpty := by
    rw [List.length_map, Bool.eq_iff_iff, decide_eq_true_iff, ofNat_eq_zero hns, List.length_eq_zero_iff,
      List.isEmpty_iff]
  rw [← hempty, expr_integers hlen (expr_literal _ st)]
  exact atLine_of_ok 1 rfl

theorem body_of_nil (apply : Apply) (h : st.SeesSum outer env (.array id (List.map .integer [])) acc) :
    stmts apply env .null sumBody st = .ok (.integer acc) st := by
  have hempty := expr_isEmpty apply h (Nat.two_pow_pos 64)
  have hacc : expr apply env (.name 1 "acc") st = .ok (.integer acc) st := expr_name h.acc
  rw [sumBody, stmts_singleton, stmt, expr_conditional hempty]
  exact (congrFun (stmts_singleton _ _) st).trans hacc

/-- With an array of one element or more the body calls `sum` with the rest, which is a new array. -/
theorem body_of_cons (apply : Apply) {n : Int64} (h : st.SeesSum outer env (.array id ((n :: ns).map .integer)) acc)
    (h' : st.fresh.2.SeesSum outer env (.array id ((n :: ns).map .integer)) acc) (hns : (n :: ns).length < 2 ^ 64) :
    stmts apply env .null sumBody st =
      atLine 1 (apply (sumClosure outer) [.array st.nextId (ns.map .integer), .integer (acc + n)]) st.fresh.2 := by
  have hempty := expr_isEmpty apply h hns
  have hrest : expr apply env (.call 1 (.name 1 "rest") [.name 1 "arr"]) st =
      .ok (.array st.nextId (ns.map .integer)) st.fresh.2 := expr_of_arr apply .rest h rfl
  have hfirst : expr apply env (.call 1 (.name 1 "first") [.name 1 "arr"]) st.fresh.2 =
      .ok (.integer n) st.fresh.2 := expr_of_arr apply .first h' rfl
  have hadd : expr apply env (.binary 1 .add (.name 1 "acc") (.call 1 (.name 1 "first") [.name 1 "arr"]))
      st.fresh.2 = .ok (.integer (acc + n)) st.fresh.2 :=
    (expr_integers (expr_name h'.acc) hfirst 1 .add).trans (atLine_of_ok 1 rfl)
  obtain ⟨_, hsum⟩ := h.sum
  rw [sumBody, stmts_singleton, stmt, expr_conditional hempty]
  exact (congrFun (stmts_singleton _ _) st).trans
    (expr_call_function (expr_name hsum) (exprs_cons hrest (exprs_cons hadd exprs_nil)))

end

section
variable {st : Store} {env : Env} {left id : Nat} {acc : Int64}

/-- In a call the body is evaluated in a new environment, which binds the arguments. -/
theorem callSum_succ {ns : List Int64} {r : EStateM.Result Exit Store Value}
    (hbody : stmts (apply left) st.scopes.size .null sumBody (st.enterSum env (.array id (ns.map .integer)) acc) = r) :
    callSum (left + 1) env id ns acc st = atLine 1 (catchReturn fun _ => r) st :=
  atLine_congr 1 ((apply_succ left rfl).trans (catchReturn_congr hbody))

theorem callSum_nil (h : st.BindsSum env) :
    callSum (left + 1) env id [] acc st = .ok (.integer acc) (st.enterSum env (.array id []) acc) :=
  callSum_succ (body_of_nil (apply left) (h.sees _ acc))

/-- One call takes one element off the array and adds it. -/
theorem callSum_cons (h : st.BindsSum env) {n : Int64} {ns : List Int64} (hns : (n :: ns).length < 2 ^ 64) :
    let st' := st.enterSum env (.array id ((n :: ns).map .integer)) acc
    callSum (left + 1) env id (n :: ns) acc st =
      atLine 1 (catchReturn fun _ => callSum left env st'.nextId ns (acc + n) st'.fresh.2) st :=
  callSum_succ (body_of_cons (apply left) (h.sees _ acc) (h.fresh.sees _ acc) hns)

/-- By induction on the array: the call for the rest of it begins as this one does, with one call less to go. -/
theorem callSum_of_short : ∀ (ns : List Int64) {left id : Nat} {acc : Int64} {st : Store}, st.BindsSum env →
    ns.length < left → ns.length < 2 ^ 64 →
    ∃ st', callSum left env id ns acc st = .ok (.integer (ns.foldl (· + ·) acc)) st'
  | [], left + 1, id, acc, st, h, _, _ => ⟨_, callSum_nil h⟩
  | n :: ns, left + 1, id, acc, st, h, hleft, hns => by
    have hnext := (h.enter (.array id ((n :: ns).map .integer)) acc).fresh
    obtain ⟨st', hrest⟩ := callSum_of_short ns hnext (Nat.lt_of_succ_lt_succ hleft) (Nat.lt_of_succ_lt hns)
    exact ⟨st', (callSum_cons h hns).trans (atLine_catchReturn_of_ok hrest)⟩

/-- By induction on the calls to go: there are elements left when no call is. -/
theorem callSum_of_long : ∀ (left : Nat) {ns : List Int64} {id : Nat} {acc : Int64} {st : Store}, st.BindsSum env →
    left ≤ ns.length → ns.length < 2 ^ 64 →
    ∃ st', callSum left env id ns acc st = .error (.error ⟨.callsTooDeep, some 1⟩) st'
  | 0, ns, id, acc, st, _, _, _ => ⟨st, rfl⟩
  | left + 1, n :: ns, id, acc, st, h, hleft, hns => by
    have hnext := (h.enter (.array id ((n :: ns).map .integer)) acc).fresh
    obtain ⟨st', hrest⟩ := callSum_of_long left hnext (Nat.le_of_succ_le_succ hleft) (Nat.lt_of_succ_lt hns)
    exact ⟨st', (callSum_cons h hns).trans (atLine_catchReturn_of_error hrest)⟩

theorem foldl_add (ns : List Int64) (acc : Int64) :
    ns.foldl (· + ·) acc = acc + Int64.ofInt (ns.map Int64.toInt).sum := by
  induction ns generalizing acc with
  | nil => exact (Int64.add_zero acc).symm
  | cons n ns ih =>
    rw [List.foldl_cons, ih, List.map_cons, List.sum_cons, Int64.ofInt_add, Int64.ofInt_toInt, Int64.add_assoc]

end
end Eval

namespace Store
open Run Eval

variable {st st' : Store} {env : Env} {id : Nat} {ns : List Int64}

theorem run_congr {x y : Run Value} (h : x st = y st') : st.run x = st'.run y := by
  unfold run
  rw [h]

/-- The store behind the first statement of the program. -/
def bindSum (st : Store) (env : Env) : Store :=
  st.fresh.2.bind env "sum" (.function st.nextId (sumClosure env))

section
variable {bindings : Bindings} {parent : Option Env}

theorem getElem?_bindSum (h : st.scopes[env]? = some ⟨bindings, parent⟩) :
    (st.bindSum env).scopes[env]? = some ⟨("sum", .function st.nextId (sumClosure env)) :: bindings, parent⟩ := by
  rw [bindSum, getElem?_bind, if_pos rfl, fresh, h]
  rfl

theorem bindings_of_getElem? (h : st.scopes[env]? = some ⟨bindings, parent⟩) : st.bindings env = bindings := by
  rw [Store.bindings, h]
  rfl

theorem bindsSum_bindSum (h : st.scopes[env]? = some ⟨bindings, parent⟩)
    (hbuiltin : ∀ b : Builtin, bindings.lookup b.name = some (.builtin b)) : (st.bindSum env).BindsSum env := by
  have hscope := getElem?_bindSum h
  have hbindings := bindings_of_getElem? hscope
  refine ⟨(Array.getElem?_eq_some_iff.mp hscope).1, ⟨st.nextId, by rw [hbindings]; rfl⟩, fun b => ?_⟩
  rw [hbindings]
  exact Eq.trans (by cases b <;> rfl) (hbuiltin b)

theorem stmts_sumProgram (left : Nat) (h : st.scopes[env]? = some ⟨bindings, parent⟩)
    (ha : bindings.lookup "a" = some (.array id (ns.map .integer))) :
    stmts (apply left) env .null sumProgram st = callSum left env id ns 0 (st.bindSum env) := by
  have hbindings := bindings_of_getElem? (getElem?_bindSum h)
  have hsum : (st.bindSum env).lookup env "sum" = some (.function st.nextId (sumClosure env)) :=
    lookup_of_bound (by rw [hbindings]; rfl)
  have ha : (st.bindSum env).lookup env "a" = some (.array id (ns.map .integer)) :=
    lookup_of_bound (by rw [hbindings]; exact ha)
  have hcall : expr (apply left) env (.call 1 (.name 1 "sum") [.name 1 "a", .literal (.integer 0)])
      (st.bindSum env) = callSum left env id ns 0 (st.bindSum env) :=
    expr_call_function (expr_name hsum)
      (exprs_cons (expr_name ha) (exprs_cons (expr_literal (.integer 0) _) exprs_nil))
  have hbind : stmt (apply left) env (.binding "sum" (.function ["arr", "acc"] sumBody)) st =
      .ok .null (st.bindSum env) := by
    rw [stmt, expr]
    rfl
  rw [sumProgram, stmts, bind_eq_of_ok hbind, stmts_singleton, stmt, hcall]

end

/-- With more calls to go than there are elements, the program sums them up; otherwise calls are nested too deeply. The
environment keeps what it had. -/
theorem run_sumProgram (left : Nat) (hns : ns.length < 2 ^ 64)
    (h : st.scopes[env]? = some ⟨("a", .array id (ns.map .integer)) :: globals, none⟩) :
    let r := st.run (stmts (apply left) env .null sumProgram)
    (ns.length < left → r.1 = .value (.integer (Int64.ofInt (ns.map Int64.toInt).sum))) ∧
      (left ≤ ns.length → r.1 = .error ⟨.callsTooDeep, some 1⟩) ∧
        r.2.scopes[env]? = some
          ⟨("sum", .function st.nextId (sumClosure env)) :: ("a", .array id (ns.map .integer)) :: globals, none⟩ := by
  have hsum : (st.bindSum env).BindsSum env := bindsSum_bindSum h fun b => by cases b <;> rfl
  have hrun := run_congr (stmts_sumProgram left h rfl)
  intro r
  have hr : r = (st.bindSum env).run (callSum left env id ns 0) := hrun
  refine ⟨fun hleft => ?_, fun hleft => ?_, ?_⟩
  · obtain ⟨st', hshort⟩ := callSum_of_short ns hsum hleft hns
    rw [hr, run_of_ok hshort, foldl_add, Int64.zero_add]
  · obtain ⟨st', hlong⟩ := callSum_of_long left hsum hleft hns
    rw [hr, run_of_error hlong]
    rfl
  · rw [hr, callSum, run_atLine]
    exact (grows_run (confined_apply left _ _ _ _)).scope_eq (getElem?_bindSum h)

theorem runSource_of_ofSource {source : String} {p : Program} (hp : Program.ofSource source = .ok p) :
    let r := st.run (stmts (apply maxCallDepth) env .null p)
    st.runSource env source =
      ((match r.1 with | .value v | .returned v => .ok v | .error e => .error (.runtime e)), r.2) := by
  dsimp only
  rw [runSource, hp]
  dsimp only
  rw [runProgram]
  generalize st.run (stmts (apply maxCallDepth) env .null p) = r
  obtain ⟨v | v | e, st⟩ := r <;> rfl

/-- In a fresh global environment in which `a` is an array of integers, the text gives the sum of them all, reduced to
64 bits, for up to 9999 elements, and fails because calls are nested too deeply for 10000 and more. In both cases the
array is what it was, the environment has gained the binding of `sum` and nothing else, and the machine that runs the
program stops in that environment, at depth 0. Lengths are counted in 64 bits. -/
theorem sums_arrays_below_call_limit (before : Store) (id : Nat) (ns : List Int64) (hns : ns.length < 2 ^ 64) :
    let env := (before.enter none globals).1
    let st := (before.enter none globals).2.bind env "a" (.array id (ns.map .integer))
    ∃ result st', st.runSource env sumText = (result, st') ∧
      (ns.length ≤ 9999 → ∃ n : Int64, result = .ok (.integer n) ∧
        n.toInt = (ns.map Int64.toInt).sum.bmod (2 ^ 64)) ∧
      (10000 ≤ ns.length → result = .error (.runtime ⟨.callsTooDeep, some 1⟩)) ∧
      st'.lookup env "a" = some (.array id (ns.map .integer)) ∧
      (∃ id f, st'.bindings env = ("sum", .function id f) :: st.bindings env ∧ st'.parent? env = none) ∧
      ∃ p, Program.ofSource sumText = .ok p ∧ ∃ m : Machine,
        (∀ m', Machine.Steps (Interpreter.start ⟨env, 0, st⟩ (.evaluate (.block p))) m' ∧ m'.step = none ↔ m' = m) ∧
          m.env = env ∧ m.depth = 0 ∧ m.store = st' := by
  intro env st
  have hscope : st.scopes[env]? = some ⟨("a", .array id (ns.map .integer)) :: globals, none⟩ := by
    simp [st, env, getElem?_bind, enter]
  obtain ⟨hshort, hlong, hafter⟩ := run_sumProgram maxCallDepth hns hscope
  have hbindings := bindings_of_getElem? hafter
  refine ⟨_, _, runSource_of_ofSource ofSource_sumText, fun hk => ?_, fun hk => ?_, ?_, ?_, ?_⟩
  · exact ⟨_, by rw [hshort (Nat.lt_succ_of_le hk)], Int64.toInt_ofInt⟩
  · rw [hlong hk]
  · exact lookup_of_bound (by rw [hbindings]; rfl)
  · rw [hbindings, bindings_of_getElem? hscope, parent?, hafter]
    exact ⟨st.nextId, sumClosure env, rfl, rfl⟩
  · exact ⟨sumProgram, ofSource_sumText, _, Interpreter.ends_iff ⟨env, 0, st⟩ (.evaluate (.block sumProgram)) (Nat.zero_le _),
      rfl, rfl, rfl⟩

theorem sums_three_but_not_ten_thousand :
    let env := (empty.enter none globals).1
    let st (ns : List Int64) := (empty.enter none globals).2.bind env "a" (.array 0 (ns.map .integer))
    (∃ (n : Int64) (st' : Store), (st [1, -2, 4]).runSource env sumText = (.ok (.integer n), st') ∧ n.toInt = 3) ∧
      ∃ st', (st (.replicate 10000 1)).runSource env sumText = (.error (.runtime ⟨.callsTooDeep, some 1⟩), st') := by
  have hlength : (List.replicate 10000 (1 : Int64)).length = 10000 := List.length_replicate
  obtain ⟨_, sum, hrun, hsum, -⟩ := sums_arrays_below_call_limit empty 0 [1, -2, 4] (by decide)
  obtain ⟨n, rfl, hn⟩ := hsum (by decide)
  obtain ⟨_, failed, hfailed, -, hfail, -⟩ := sums_arrays_below_call_limit empty 0 (.replicate 10000 1)
    (by rw [hlength]; decide)
  obtain rfl := hfail hlength.ge
  exact ⟨⟨n, sum, hrun, hn⟩, failed, hfailed⟩

end Store
end Monkey
