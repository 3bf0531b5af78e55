import FrameRecovery.Proofs.Inlining

namespace FrameRecovery

/-- Two contexts agree on the registers and variables in a tree, and on what addresses there are. -/
structure Context.Agrees (C C' : Context) (t : Term) : Prop where
  address : C'.address = C.address
  register : ∀ i n v, Term.Within (.node i (.register n v)) t → C'.store.register n v = C.store.register n v
  var : ∀ i n v o, Term.Within (.node i (.var n v o)) t → C'.store.var n v = C.store.var n v

theorem Context.Agrees.child {C C' : Context} {i : NodeId} {e : Expr Term} {c : Term} (h : C.Agrees C' (.node i e))
    (hc : c ∈ e.children) : C.Agrees C' c :=
  ⟨h.address, fun j n v hu => h.register j n v (.inside hc hu), fun j n v o hu => h.var j n v o (.inside hc hu)⟩

namespace Term

/-- A value that is safe to move: it is built by arithmetic from registers, variables and constants, and from
    addresses of such values and of memory at them. -/
inductive Movable : Term → Prop
  | register (i : NodeId) (n : String) (v : Option Nat) : Movable (node i (.register n v))
  | var (i : NodeId) (n : String) (v : Option Nat) (o : NodeId) : Movable (node i (.var n v o))
  | constant (i : NodeId) (w : Word) : Movable (node i (.constant w))
  | binary (i : NodeId) (op : BinaryOp) {x y : Term} (hx : Movable x) (hy : Movable y) :
    Movable (node i (.binary op x y))
  | unary (i : NodeId) (op : UnaryOp) {x : Term} (hx : Movable x) : Movable (node i (.unary op x))
  | addressOf (i : NodeId) {x : Term} (hx : Movable x) : Movable (node i (.addressOf x))
  | addressOfDeref (i j : NodeId) (v : Option Nat) {x : Term} (hx : Movable x) :
    Movable (node i (.addressOf (node j (.deref x v))))

/-- What can have its address taken in a value that is safe to move: such a value, or memory at one. -/
def IsPlace (x : Term) : Prop :=
  x.isReplaceable = true ∨ ∃ j y v, x = node j (.deref y v) ∧ y.isReplaceable = true

/-- In a tree another one is a value that is safe to move, or memory of which the address is taken. -/
def MovableIn (u t : Term) : Prop :=
  u.Movable ∨ ∃ i j x v, u = node j (.deref x v) ∧ Within (node i (.addressOf u)) t

variable {C C' : Context} {t u c x y : Term} {i j : NodeId} {v : Option Nat}

theorem MovableIn.mono (h : u.MovableIn c) (hc : Within c t) : u.MovableIn t :=
  h.imp_right fun ⟨i, j, x, v, hderef, h⟩ => ⟨i, j, x, v, hderef, h.trans hc⟩

@[simp] theorem isReplaceable_binary {op : BinaryOp} :
    (node i (.binary op x y)).isReplaceable = (x.isReplaceable && y.isReplaceable) := rfl

@[simp] theorem isReplaceable_unary {op : UnaryOp} : (node i (.unary op x)).isReplaceable = x.isReplaceable := rfl

/-- The numbers of nodes matter to calls and merges alone. -/
theorem outcome_form (hcall : t.count Expr.isCall = 0) (htheta : t.count Expr.isTheta = 0) (C : Context) :
    t.form.outcome C = t.outcome C := by
  induction t using Term.induction with
  | step i e ih =>
    have hchildren : e.map (outcome C ∘ form) = e.map (outcome C) := Expr.map_congr fun c hc => by
      have hle := (Within.of_mem_children (i := i) hc).count_le (p := Expr.isCall)
      have hle' := (Within.of_mem_children (i := i) hc).count_le (p := Expr.isTheta)
      exact ih c hc (by omega) (by omega)
    rw [form_node, outcome_node, outcome_node, Expr.map_map, hchildren]
    cases e with
    | call => simp [Expr.isCall, Expr.head, Expr.map] at hcall
    | theta => simp [Expr.isTheta, Expr.head, Expr.map] at htheta
    | ret x => cases x <;> rfl
    | _ => rfl

namespace Movable

theorem isReplaceable (h : t.Movable) : t.isReplaceable = true := by
  induction h with
  | binary i op hx hy ihx ihy => simp [ihx, ihy]
  | unary i op hx ih => simpa using ih
  | _ => rfl

theorem addresses (h : t.Movable) : t.Addresses IsPlace := by
  induction h with
  | register | var | constant => simp [addresses_node, Expr.children]
  | binary i op hx hy ihx ihy => simpa [addresses_node, Expr.children] using ⟨ihx, ihy⟩
  | unary i op hx ih => simpa [addresses_node, Expr.children] using ih
  | addressOf i hx ih => simpa [addresses_node, Expr.children] using ⟨ih, .inl hx.isReplaceable⟩
  | addressOfDeref i j v hx ih =>
    have hplace : IsPlace (node j (.deref _ v)) := .inr ⟨j, _, v, rfl, hx.isReplaceable⟩
    simpa [addresses_node, Expr.children] using ⟨ih, hplace⟩

/-- Below a value that is safe to move there are such values alone, and memory of which the address is taken. -/
theorem within (h : t.Movable) (hu : Within u t) : u.MovableIn t := by
  induction h with
  | register | var | constant =>
    cases hu with
    | refl => exact .inl (by constructor)
    | inside hc => cases hc
  | binary i op hx hy ihx ihy =>
    cases hu with
    | refl => exact .inl (.binary i op hx hy)
    | inside hc hu =>
      rcases List.mem_pair.1 hc with rfl | rfl
      · exact (ihx hu).mono (.of_mem_children hc)
      · exact (ihy hu).mono (.of_mem_children hc)
  | unary i op hx ih =>
    cases hu with
    | refl => exact .inl (.unary i op hx)
    | inside hc hu =>
      obtain rfl := List.mem_singleton.1 hc
      exact (ih hu).mono (.of_mem_children hc)
  | addressOf i hx ih =>
    cases hu with
    | refl => exact .inl (.addressOf i hx)
    | inside hc hu =>
      obtain rfl := List.mem_singleton.1 hc
      exact (ih hu).mono (.of_mem_children hc)
  | @addressOfDeref i j v x hx ih =>
    cases hu with
    | refl => exact .inl (.addressOfDeref i j v hx)
    | inside hc hu =>
      obtain rfl := List.mem_singleton.1 hc
      cases hu with
      | refl => exact .inr ⟨i, j, x, v, rfl, .refl _⟩
      | inside hd hu =>
        obtain rfl := List.mem_singleton.1 hd
        exact (ih hu).mono ((Within.of_mem_children hd).trans (.of_mem_children hc))

/-- A value that is safe to move contains no call and no merge. -/
theorem count_eq_zero (h : t.Movable) : t.count Expr.isCall = 0 ∧ t.count Expr.isTheta = 0 := by
  constructor <;> refine count_eq_zero_iff.2 fun u hu => ?_
  all_goals
    rcases h.within hu with hmovable | ⟨i, j, x, v, rfl, -⟩
    · cases hmovable <;> rfl
    · rfl

/-- Computing the value makes no call and gives no address. -/
theorem outcome_eq_value (h : t.Movable) (C : Context) : t.outcome C = ⟨(t.outcome C).value, none, []⟩ := by
  induction h <;> simp_all [outcome_node, Expr.map, Context.eval, Outcome.ext_iff]

/-- The value is the same wherever the registers and variables in it are. -/
theorem outcome_eq (h : t.Movable) (hC : C.Agrees C' t) : t.outcome C' = t.outcome C := by
  induction h with
  | register i n v => simp [outcome_node, Expr.map, Context.eval, hC.register i n v (.refl _)]
  | var i n v o => simp [outcome_node, Expr.map, Context.eval, hC.var i n v o (.refl _)]
  | constant => rfl
  | binary i op hx hy ihx ihy =>
    have hx := ihx (hC.child (by simp [Expr.children]))
    have hy := ihy (hC.child (by simp [Expr.children]))
    simp [outcome_node, Expr.map, Context.eval, hx, hy]
  | unary i op hx ih =>
    have hx := ih (hC.child (by simp [Expr.children]))
    simp [outcome_node, Expr.map, Context.eval, hx]
  | addressOf i hx ih =>
    have hx := ih (hC.child (by simp [Expr.children]))
    simp [outcome_node, Expr.map, Context.eval, hx, hC.address]
  | @addressOfDeref i j v x hx ih =>
    have hderef : C.Agrees C' (node j (.deref x v)) := hC.child (by simp [Expr.children])
    have hx := ih (hderef.child (by simp [Expr.children]))
    simp [outcome_node, Expr.map, Context.eval, hx]

end Movable

private theorem movable_of_addresses (t : Term) : (t.isReplaceable = true → t.Addresses IsPlace → t.Movable) ∧
    ∀ x v, t.expr = .deref x v → x.isReplaceable = true → t.Addresses IsPlace → x.Movable := by
  induction t using Term.induction with
  | step i e ih =>
    refine ⟨fun h ht => ?_, ?_⟩
    · have hbelow : ∀ c ∈ e.children, c.isReplaceable = true → c.Movable := fun c hc h =>
        (ih c hc).1 h ((addresses_node.1 ht).1 c hc)
      cases e with
      | register n v => exact .register i n v
      | var n v o => exact .var i n v o
      | constant w => exact .constant i w
      | binary op x y =>
        rw [isReplaceable_binary, Bool.and_eq_true] at h
        exact .binary i op (hbelow x (by simp [Expr.children]) h.1) (hbelow y (by simp [Expr.children]) h.2)
      | unary op x => exact .unary i op (hbelow x (by simp [Expr.children]) h)
      | addressOf x =>
        rcases (addresses_node.1 ht).2 x rfl with hx | ⟨j, y, v, rfl, hy⟩
        · exact .addressOf i (hbelow x (by simp [Expr.children]) hx)
        · -- What is below the memory is two steps below the address.
          have hderef := ih (node j (.deref y v)) (by simp [Expr.children])
          exact .addressOfDeref i j v (hderef.2 y v rfl hy ((addresses_node.1 ht).1 _ (by simp [Expr.children])))
      | _ =>
        rw [isReplaceable_eq, isBuiltFrom_of_not_isArithmetic rfl] at h
        cases h
    · rintro x v rfl hx ht
      exact (ih x (by simp [Expr.children])).1 hx ((addresses_node.1 ht).1 x (by simp [Expr.children]))

/-- What has registers and constants in it alone is safe to move. -/
theorem Inlineable.movable (h : t.Inlineable) : t.Movable := by
  induction h with
  | register i n v => exact .register i n v
  | constant i w => exact .constant i w
  | binary i op _ _ hx hy => exact .binary i op hx hy
  | unary i op _ hx => exact .unary i op hx

/-- What is taken to be the same everywhere is safe to move exactly if the addresses in it are. -/
theorem movable_iff : t.Movable ↔ t.isReplaceable = true ∧ t.Addresses IsPlace :=
  ⟨fun h => ⟨h.isReplaceable, h.addresses⟩, fun ⟨h, haddresses⟩ => (movable_of_addresses t).1 h haddresses⟩

/-- The result of a call is taken to be the same everywhere in `&call 9()`. -/
example : (node ⟨2⟩ (.addressOf (node ⟨1⟩ (.call (node ⟨0⟩ (.constant 9)) [])))).isReplaceable = true ∧
    (node ⟨2⟩ (.addressOf (node ⟨1⟩ (.call (node ⟨0⟩ (.constant 9)) [])))).containsCall = true := by
  decide

end Term

end FrameRecovery
