import FrameRecovery.Proofs.Flow.Coherent
import FrameRecovery.Proofs.Flow.Values

namespace FrameRecovery

/-- What an execution meets outside of the function: the results of calls, which may depend on
    when and where the call is made, on its target and on its arguments, and the address of what is
    no cell of memory. -/
structure Surroundings where
  call : Nat → NodeId → Word → List Word → Word
  address : Word → Word

/-- The state of an execution. Every version of a register has a cell of its own. -/
structure Store where
  register : String → Option Nat → Word
  var : String → Option Nat → Word
  memory : Word → Word
  /-- The operands that were assigned to, the last one first -/
  assigned : List NodeId
  /-- How many statements were executed -/
  time : Nat

/-- What the value of an expression depends on. -/
structure Context where
  store : Store
  call : NodeId → Word → List Word → Word
  address : Word → Word
  /-- The links of the operands of each merge -/
  sources : NodeId → List Link

/-- What comes of evaluating an expression. That of an assignment is the value that is assigned and
    the address it is written to, if it is written to memory; that of a branch is its condition. -/
@[ext]
structure Outcome where
  value : Word
  /-- The address of a dereference -/
  address : Option Word
  /-- The calls that were made, each with its target and its arguments -/
  calls : List (Word × List Word)

namespace Context

/-- The value of a merge: that of the operand whose definition was assigned last, and if none was
    that of the operand for the entry. -/
def merge (C : Context) (i : NodeId) (values : List Word) : Word :=
  let operands := (C.sources i).zip values
  match C.store.assigned.findSome? fun d => operands.lookup (.use (some d)) with
  | some w => w
  | none => (operands.lookup (.use none)).getD 0

/-- What comes of evaluating a node, given what comes of evaluating its children. -/
def eval (C : Context) (i : NodeId) : Expr Outcome → Outcome
  | .register n v => ⟨C.store.register n v, none, []⟩
  | .deref x _ => ⟨C.store.memory x.value, some x.value, x.calls⟩
  | .addressOf x => ⟨x.address.getD (C.address x.value), none, x.calls⟩
  | .var n v _ => ⟨C.store.var n v, none, []⟩
  | .constant w => ⟨w, none, []⟩
  | .binary op x y => ⟨op.eval x.value y.value, none, x.calls ++ y.calls⟩
  | .unary op x => ⟨op.eval x.value, none, x.calls⟩
  | .call x ys =>
    let arguments := ys.map Outcome.value
    ⟨C.call i x.value arguments, none,
      x.calls ++ ys.flatMap Outcome.calls ++ [(x.value, arguments)]⟩
  | .theta xs => ⟨C.merge i (xs.map Outcome.value), none, xs.flatMap Outcome.calls⟩
  | .assign x y => ⟨y.value, x.address, x.calls ++ y.calls⟩
  | .branch x _ => ⟨x.value, none, x.calls⟩
  | .goto _ | .ret none => ⟨0, none, []⟩
  | .ret (some x) => ⟨x.value, none, x.calls⟩

end Context

/-- What comes of evaluating a tree. -/
def Term.outcome (C : Context) (t : Term) : Outcome :=
  t.fold C.eval

theorem Term.outcome_node (C : Context) (i : NodeId) (e : Expr Term) :
    (node i e).outcome C = C.eval i (e.map (outcome C)) :=
  fold_node ..

namespace Store

/-- The state after something was assigned to an operand. -/
def write (σ : Store) (target : Term) (o : Outcome) : Store :=
  match target.expr with
  | .register n v =>
    { σ with register := fun m k => if m = n ∧ k = v then o.value else σ.register m k }
  | .var n v _ => { σ with var := fun m k => if m = n ∧ k = v then o.value else σ.var m k }
  | .deref _ _ => { σ with memory := Function.update σ.memory (o.address.getD 0) o.value }
  | _ => σ

/-- The state after a statement was executed, given what came of evaluating it. -/
def after (σ : Store) (t : Term) (o : Outcome) : Store :=
  match t.expr with
  | .assign x _ => { σ.write x o with assigned := x.id :: σ.assigned, time := σ.time + 1 }
  | _ => { σ with time := σ.time + 1 }

end Store

namespace Flow

/-- The links of the operands of a merge. -/
def sources (f : Flow) (i : NodeId) : List Link :=
  match f.exprAt i with
  | some (.theta xs) => xs.map f.linkOf
  | _ => []

/-- What the values of expressions of a flow depend on in a state. -/
def context (f : Flow) (w : Surroundings) (σ : Store) : Context :=
  ⟨σ, w.call σ.time, w.address, f.sources⟩

/-- The state after a statement was executed. -/
def execute (f : Flow) (w : Surroundings) (σ : Store) (s : StatementId) : Store :=
  match f.statementTerm s with
  | .ok t => σ.after t (t.outcome (f.context w σ))
  | .error _ => σ

/-- The state after some statements were executed in order. -/
def run (f : Flow) (w : Surroundings) (σ : Store) (ss : List StatementId) : Store :=
  ss.foldl (f.execute w) σ

/-- A statement assigns to an operand for a version of a register. -/
def Sets (f : Flow) (s : StatementId) (n : String) (v : Option Nat) (d : NodeId) : Prop :=
  ∃ i y, f.statementTerm s = .ok (.node i (.assign (.node d (.register n v)) y))

/-- A statement assigns to memory at an address. -/
def Writes (f : Flow) (s : StatementId) (x : Term) (d : NodeId) : Prop :=
  ∃ i v y, f.statementTerm s = .ok (.node i (.assign (.node d (.deref x v)) y))

variable {f : Flow} {w : Surroundings} {σ : Store} {s : StatementId} {ss : List StatementId}
  {n : String} {v : Option Nat} {d i : NodeId} {t x y : Term} {a : Word}

@[simp] theorem run_nil : f.run w σ [] = σ := rfl

theorem run_append (ss ss' : List StatementId) :
    f.run w σ (ss ++ ss') = f.run w (f.run w σ ss) ss' :=
  List.foldl_append

theorem run_concat (ss : List StatementId) (s : StatementId) :
    f.run w σ (ss ++ [s]) = f.execute w (f.run w σ ss) s :=
  List.foldl_concat ..

theorem run_cons (s : StatementId) (ss : List StatementId) :
    f.run w σ (s :: ss) = f.run w (f.execute w σ s) ss := rfl

theorem Holds.execute_eq (h : f.Holds s t) (w : Surroundings) (σ : Store) :
    f.execute w σ s = σ.after t (t.outcome (f.context w σ)) := by
  unfold execute
  rw [h.statementTerm_eq]

theorem Holds.sets_iff (h : f.Holds s t) :
    f.Sets s n v d ↔ ∃ i y, t = .node i (.assign (.node d (.register n v)) y) := by
  simp [Sets, h.statementTerm_eq]

/-- An assignment to a register leaves the value there. -/
theorem register_execute_of_holds
    (h : f.Holds s (.node i (.assign (.node d (.register n v)) y))) :
    (f.execute w σ s).register n v = (y.outcome (f.context w σ)).value := by
  rw [h.execute_eq]
  simp [Store.after, Store.write, Term.outcome_node, Expr.map, Context.eval]

/-- A register keeps what it has until it is assigned to. -/
theorem register_execute_of_not_sets (h : ∀ d, ¬ f.Sets s n v d) :
    (f.execute w σ s).register n v = σ.register n v := by
  unfold execute
  split
  next t ht =>
    unfold Store.after Store.write
    split
    next x y hassign =>
      split
      next m k hx =>
        have hne : ¬ (n = m ∧ v = k) := by
          rintro ⟨rfl, rfl⟩
          obtain ⟨i, e⟩ := t
          obtain ⟨j, e'⟩ := x
          cases hassign
          cases hx
          exact h j ⟨i, y, ht⟩
        simp [hne]
      all_goals rfl
    · rfl
  next => rfl

theorem register_run_of_not_sets (h : ∀ s ∈ ss, ∀ d, ¬ f.Sets s n v d) :
    (f.run w σ ss).register n v = σ.register n v := by
  induction ss generalizing σ with
  | nil => rfl
  | cons s rest ih =>
    rw [run_cons, ih fun s' hs' => h s' (List.mem_cons_of_mem _ hs'),
      register_execute_of_not_sets (h s List.mem_cons_self)]

/-- An assignment to memory leaves the value there. -/
theorem memory_execute_of_holds (h : f.Holds s (.node i (.assign (.node d (.deref x v)) y))) :
    (f.execute w σ s).memory (x.outcome (f.context w σ)).value = (y.outcome (f.context w σ)).value := by
  rw [h.execute_eq]
  simp [Store.after, Store.write, Term.outcome_node, Expr.map, Context.eval]

/-- A cell of memory keeps what it has until it is assigned to. -/
theorem memory_execute_of_not_writes (h : ∀ x d, f.Writes s x d → (x.outcome (f.context w σ)).value ≠ a) :
    (f.execute w σ s).memory a = σ.memory a := by
  unfold execute
  split
  next t ht =>
    unfold Store.after Store.write
    split
    next X y hassign =>
      obtain ⟨i, e⟩ := t
      obtain rfl : e = .assign X y := hassign
      split
      case h_3 x v hX =>
        obtain ⟨d, e⟩ := X
        obtain rfl : e = .deref x v := hX
        have hne := h x d ⟨i, v, y, ht⟩
        simp [Term.outcome_node, Expr.map, Context.eval, Function.update_of_ne hne.symm]
      all_goals rfl
    · rfl
  next => rfl

theorem memory_run_of_not_writes (h : ∀ before s between, ss = before ++ s :: between → ∀ x d, f.Writes s x d →
    (x.outcome (f.context w (f.run w σ before))).value ≠ a) : (f.run w σ ss).memory a = σ.memory a := by
  induction ss generalizing σ with
  | nil => rfl
  | cons s rest ih =>
    rw [run_cons, ih fun before s' between hsplit => h (s :: before) s' between (by simp [hsplit])]
    exact memory_execute_of_not_writes (h [] s rest rfl)

theorem assigned_execute_of_holds (h : f.Holds s t) : (f.execute w σ s).assigned =
    match t.expr with
    | .assign x _ => x.id :: σ.assigned
    | _ => σ.assigned := by
  rw [h.execute_eq, Store.after]
  cases t.expr <;> rfl

end Flow

end FrameRecovery
