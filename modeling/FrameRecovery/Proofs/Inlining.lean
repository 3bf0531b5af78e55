import FrameRecovery.Proofs.Flow.Counting
import FrameRecovery.Proofs.Lowering
import FrameRecovery.Proofs.Semantics
import FrameRecovery.Proofs.Simplify

namespace FrameRecovery

open Simplify

/-- The version of a register that an expression is, if it is one. -/
def Expr.cell? {α : Type} : Expr α → Option (String × Option Nat)
  | .register n v => some (n, v)
  | _ => none

theorem Expr.cell?_eq_of_head_eq {α β : Type} {e : Expr α} {e' : Expr β} (h : e.head = e'.head) :
    e.cell? = e'.cell? := by
  cases e <;> cases e' <;> simp_all [head, map, cell?]

theorem Expr.isAction_eq_of_head_eq {α β : Type} {e : Expr α} {e' : Expr β} (h : e.head = e'.head) :
    e.isAction = e'.isAction := by
  cases e <;> cases e' <;> simp_all [head, map, isAction]

/-- Whether the value of an expression is taken to be the same everywhere. -/
def Expr.isMovable {α : Type} : Expr α → Bool
  | .register _ _ | .var _ _ _ | .addressOf _ => true
  | _ => false

/-- What an expression comes to depends on its children as far as it uses what comes of them. -/
theorem Context.eval_congr {C : Context} {i : NodeId} {E E' : Expr Outcome} (hhead : E'.head = E.head)
    (hvalue : E'.children.map Outcome.value = E.children.map Outcome.value)
    (hcalls : E'.children.map Outcome.calls = E.children.map Outcome.calls)
    (haddress : ∀ o, E = .addressOf o → E'.children.map Outcome.address = E.children.map Outcome.address) :
    (C.eval i E').value = (C.eval i E).value ∧ (C.eval i E').calls = (C.eval i E).calls := by
  cases E <;> cases E' <;>
    simp_all [Expr.head, Expr.map, Expr.children, Context.eval, List.flatMap_def]
  next x x' => cases x <;> cases x' <;> simp_all

namespace Term

variable {R : Term → Term → Prop} {C C' : Context} {t t' u b z : Term} {i j : NodeId} {e e' : Expr Term}
  {p : Expr.Test} {amount : Word} {L : List (String × Option Nat)}

/-- A change that does not matter to what is made of the tree there does not matter further up. -/
theorem Somewhere.fold_eq {β : Type} {k : NodeId → Expr β → β} (h : Somewhere R t t')
    (hR : ∀ u u', R u u' → u'.fold k = u.fold k) : t'.fold k = t.fold k := by
  induction h with
  | here h => exact hR _ _ h
  | inside hhead hold hnew _ ih =>
    rw [fold_node, fold_node]
    congr 1
    refine Expr.ext_children (by simp [hhead]) ?_
    simp [hold, hnew, ih]

/-- Whether a tree is built by arithmetic from constants and what passes a test. -/
def isBuiltFrom (p : Expr.Test) (t : Term) : Bool :=
  t.fold fun _ e => match e with
    | .constant _ => true
    | .binary _ a b => a && b
    | .unary _ a => a
    | e => p e.head

/-- A value that is safe to move: it is built by arithmetic from registers and constants. -/
inductive Inlineable : Term → Prop
  | register (i : NodeId) (n : String) (v : Option Nat) : Inlineable (node i (.register n v))
  | constant (i : NodeId) (w : Word) : Inlineable (node i (.constant w))
  | binary (i : NodeId) (op : BinaryOp) {x y : Term} (hx : Inlineable x) (hy : Inlineable y) :
    Inlineable (node i (.binary op x y))
  | unary (i : NodeId) (op : UnaryOp) {x : Term} (hx : Inlineable x) : Inlineable (node i (.unary op x))

/-- Whether a value is safe to move. -/
def isInlineable (t : Term) : Bool :=
  t.isBuiltFrom fun e => e.cell?.isSome

/-- Whether a tree is one with an address, or simplification may make it one: it is a dereference or an
    assignment, or a sum or a difference with one in it. -/
def leadsToDeref (t : Term) : Bool :=
  t.fold fun _ e => match e with
    | .deref _ _ | .assign _ _ => true
    | .binary op a b => (signedAmount op 0).isSome && (a || b)
    | _ => false

/-- No address is taken of a sum or a difference with a dereference in it. -/
def NoSumAddressed (t : Term) : Prop :=
  t.Addresses fun c => c.leadsToDeref = true → ∃ x v, c.expr = .deref x v

/-- The versions of registers in a tree. -/
def cells (t : Term) : List (String × Option Nat) :=
  t.fold fun _ e => e.cell?.toList ++ e.children.flatten

@[simp] theorem isBuiltFrom_constant (i : NodeId) (w : Word) : (node i (.constant w)).isBuiltFrom p = true := rfl

@[simp] theorem isBuiltFrom_binary (i : NodeId) (op : BinaryOp) (x y : Term) :
    (node i (.binary op x y)).isBuiltFrom p = (x.isBuiltFrom p && y.isBuiltFrom p) := rfl

@[simp] theorem isBuiltFrom_unary (i : NodeId) (op : UnaryOp) (x : Term) :
    (node i (.unary op x)).isBuiltFrom p = x.isBuiltFrom p := rfl

theorem isBuiltFrom_of_not_isArithmetic (h : e.isArithmetic = false) :
    (node i e).isBuiltFrom p = p e.head := by
  unfold isBuiltFrom
  rw [fold_node]
  cases e <;> first | exact congrArg p (Expr.head_map _ _) | cases h

@[simp] theorem leadsToDeref_constant (i : NodeId) (w : Word) : (node i (.constant w)).leadsToDeref = false := rfl

@[simp] theorem leadsToDeref_unary (i : NodeId) (op : UnaryOp) (x : Term) :
    (node i (.unary op x)).leadsToDeref = false := rfl

@[simp] theorem leadsToDeref_binary (i : NodeId) (op : BinaryOp) (x y : Term) :
    (node i (.binary op x y)).leadsToDeref = ((signedAmount op 0).isSome && (x.leadsToDeref || y.leadsToDeref)) :=
  rfl

@[simp] theorem cells_node (i : NodeId) (e : Expr Term) :
    (node i e).cells = e.cell?.toList ++ e.children.flatMap cells := by
  unfold cells
  rw [fold_node, Expr.children_map, List.flatMap_def, Expr.cell?_eq_of_head_eq (Expr.head_map _ e)]

theorem isBuiltFrom_mono {q : Expr.Test} (hpq : ∀ e, p e = true → q e = true) (h : t.isBuiltFrom p = true) :
    t.isBuiltFrom q = true := by
  induction t using Term.induction with
  | step i e ih =>
    cases e with
    | constant => rfl
    | binary op x y =>
      rw [isBuiltFrom_binary, Bool.and_eq_true] at h ⊢
      exact ⟨ih x (by simp [Expr.children]) h.1, ih y (by simp [Expr.children]) h.2⟩
    | unary op x =>
      rw [isBuiltFrom_unary] at h ⊢
      exact ih x (by simp [Expr.children]) h
    | _ =>
      rw [isBuiltFrom_of_not_isArithmetic rfl] at h ⊢
      exact hpq _ h

/-- What may be moved is built from registers, variables and addresses. -/
theorem isReplaceable_eq (t : Term) : t.isReplaceable = t.isBuiltFrom Expr.isMovable := by
  unfold isReplaceable isBuiltFrom
  congr 1
  funext i e
  cases e <;> rfl

theorem isReplaceable_of_isInlineable (h : t.isInlineable = true) : t.isReplaceable = true := by
  rw [isReplaceable_eq]
  refine isBuiltFrom_mono (fun e he => ?_) h
  cases e <;> simp_all [Expr.cell?, Expr.isMovable]

section Offset

variable (h : IsOffset i z amount t)
include h

theorem isBuiltFrom_of_isOffset : t.isBuiltFrom p = z.isBuiltFrom p := by
  obtain ⟨-, rfl⟩ | ⟨-, k, rfl⟩ := h
  · rfl
  · simp

theorem leadsToDeref_of_isOffset : t.leadsToDeref = z.leadsToDeref := by
  obtain ⟨-, rfl⟩ | ⟨-, k, rfl⟩ := h
  · rfl
  · have hsome : (signedAmount (written amount).1 0).isSome = true := by
      unfold written
      split <;> rfl
    simp [hsome]

theorem cells_of_isOffset : t.cells = z.cells := by
  obtain ⟨-, rfl⟩ | ⟨-, k, rfl⟩ := h
  · rfl
  · simp [Expr.children, Expr.cell?]

theorem outcome_of_isOffset (C : Context) : (t.outcome C).value = (z.outcome C).value + amount ∧
    (t.outcome C).calls = (z.outcome C).calls := by
  obtain ⟨rfl, rfl⟩ | ⟨-, k, rfl⟩ := h
  · simp
  · simp [outcome_node, Expr.map, Context.eval, eval_written]

end Offset

section Rules

variable (h : Rule t t')
include h

theorem isArithmetic_of_rule : t.expr.isArithmetic = true := by
  cases h <;> rfl

theorem isBuiltFrom_of_rule : t'.isBuiltFrom p = t.isBuiltFrom p := by
  cases h with
  | binary | unary => rfl
  | turn => simp
  | write _ ht | join _ _ ht =>
    rw [isBuiltFrom_of_isOffset ht]
    simp

theorem leadsToDeref_of_rule : t'.leadsToDeref = t.leadsToDeref := by
  have hsome : ∀ {op : BinaryOp} {b w : Word}, signedAmount op b = some w → (signedAmount op 0).isSome = true := by
    intro op b w h
    cases op <;> first | rfl | cases h
  cases h with
  | binary | unary => simp
  | turn => simp
  | write hamount ht =>
    rw [leadsToDeref_of_isOffset ht]
    simp [hsome hamount]
  | join houter hinner ht =>
    rw [leadsToDeref_of_isOffset ht]
    simp [hsome houter, hsome hinner]

theorem cells_of_rule : t'.cells ⊆ t.cells := by
  cases h with
  | binary | unary => simp [Expr.children, Expr.cell?]
  | turn => simp [Expr.children, Expr.cell?]
  | write _ ht | join _ _ ht =>
    rw [cells_of_isOffset ht]
    simp [Expr.children, Expr.cell?]

theorem outcome_of_rule (C : Context) : (t'.outcome C).value = (t.outcome C).value ∧
    (t'.outcome C).calls = (t.outcome C).calls := by
  cases h with
  | binary | unary => simp [outcome_node, Expr.map, Context.eval]
  | @turn i j a y =>
    simp [outcome_node, Expr.map, Context.eval, BinaryOp.eval, Int64.add_comm]
  | write hamount ht =>
    obtain ⟨hvalue, hcalls⟩ := outcome_of_isOffset ht C
    simp [outcome_node, Expr.map, Context.eval, hvalue, hcalls, eval_of_signedAmount hamount]
  | join houter hinner ht =>
    obtain ⟨hvalue, hcalls⟩ := outcome_of_isOffset ht C
    simp [outcome_node, Expr.map, Context.eval, hvalue, hcalls, eval_of_signedAmount houter,
      eval_of_signedAmount hinner, Int64.add_assoc, Int64.add_comm]

end Rules

theorem address_eq_none (h : t.leadsToDeref = false) : (t.outcome C).address = none := by
  obtain ⟨i, e⟩ := t
  rw [outcome_node]
  cases e with
  | deref | assign => cases h
  | ret x => cases x <;> rfl
  | _ => rfl

/-- Changes at one place that leave what a tree is made of. They put nothing new there but for the registers in
    `L`. -/
structure Harmless (L : List (String × Option Nat)) (R : Term → Term → Prop) : Prop where
  arithmetic : ∀ u u', R u u' → u.expr.isArithmetic = true ∨ ∃ n v, u.expr = .register n v
  leads : ∀ u u', R u u' → u'.leadsToDeref = u.leadsToDeref
  addresses : ∀ u u' P, R u u' → u.Addresses P → u'.Addresses P
  cells : ∀ u u', R u u' → u'.cells ⊆ u.cells ++ L
  replaceable : ∀ u u', R u u' → u'.isReplaceable = u.isReplaceable
  inlineable : ∀ u u', R u u' → u'.isInlineable = u.isInlineable

theorem harmless_rule (L : List (String × Option Nat)) : Harmless L Rule where
  arithmetic _ _ h := .inl (isArithmetic_of_rule h)
  leads _ _ h := leadsToDeref_of_rule h
  addresses _ _ _ h hu := hu.rule h
  cells _ _ h _ hc := List.mem_append_left _ (cells_of_rule h hc)
  replaceable u u' h := by rw [isReplaceable_eq, isReplaceable_eq, isBuiltFrom_of_rule h]
  inlineable _ _ h := isBuiltFrom_of_rule h

/-- Changes that put the same value there, with the same calls. -/
def KeepsValue (C : Context) (R : Term → Term → Prop) : Prop :=
  ∀ u u', R u u' → (u'.outcome C).value = (u.outcome C).value ∧ (u'.outcome C).calls = (u.outcome C).calls

namespace Harmless

variable (hR : Harmless L R)
include hR

theorem leadsToDeref_eq (h : Somewhere R t t') : t'.leadsToDeref = t.leadsToDeref :=
  h.fold_eq hR.leads

theorem ne_deref (h : R u t) (x : Term) (v : Option Nat) : u.expr ≠ .deref x v := by
  intro heq
  obtain harith | ⟨n, v, hregister⟩ := hR.arithmetic _ _ h
  · rw [heq] at harith
    cases harith
  · rw [heq] at hregister
    cases hregister

theorem noSumAddressed (h : Somewhere R t t') (ht : t.NoSumAddressed) : t'.NoSumAddressed := by
  refine Addresses.somewhere h ht (fun u u' hu => hR.addresses u u' _ hu) fun c c' h hc hP hleads => ?_
  rw [hR.leadsToDeref_eq h] at hleads
  obtain ⟨x, v, hx⟩ := hP hleads
  cases h with
  | here h => exact absurd hx (hR.ne_deref h x v)
  | inside hhead hold hnew h =>
    obtain rfl := hx
    obtain ⟨x', rfl⟩ := Expr.eq_deref_of_head_eq hhead
    exact ⟨x', v, rfl⟩

/-- What comes of a tree stays, but for the address of what only leads to one that has an address. -/
theorem outcome_eq (hC : KeepsValue C R) (h : Somewhere R t t') (ht : t.NoSumAddressed) :
    (t'.outcome C).value = (t.outcome C).value ∧ (t'.outcome C).calls = (t.outcome C).calls ∧
      ((t.leadsToDeref = true → ∃ x v, t.expr = .deref x v) → (t'.outcome C).address = (t.outcome C).address) := by
  induction h with
  | here h =>
    refine ⟨(hC _ _ h).1, (hC _ _ h).2, fun hP => ?_⟩
    have hleads := hR.leads _ _ h
    cases ht : leadsToDeref _ with
    | true =>
      obtain ⟨x, v, hx⟩ := hP ht
      exact absurd hx (hR.ne_deref h x v)
    | false => rw [address_eq_none ht, address_eq_none (hleads.trans ht)]
  | @inside i e e' before after c c' hhead hold hnew h ih =>
    obtain ⟨hchildren, hself⟩ := addresses_node.1 ht
    obtain ⟨hvalue, hcalls, haddress⟩ := ih (hchildren c (by simp [hold]))
    have hlead := hR.leadsToDeref_eq (.inside (i := i) hhead hold hnew h)
    have hheads : (e'.map (outcome C)).head = (e.map (outcome C)).head := by
      rw [Expr.head_map, Expr.head_map, hhead]
    have heval := Context.eval_congr (C := C) (i := i) hheads (by simp [hold, hnew, hvalue]) (by simp [hold, hnew, hcalls]) ?_
    · rw [outcome_node, outcome_node]
      refine ⟨heval.1, heval.2, fun hP => ?_⟩
      rw [← outcome_node, ← outcome_node]
      cases ht : (node i e).leadsToDeref with
      | true =>
        obtain ⟨x, v, rfl⟩ := hP ht
        obtain ⟨x', rfl⟩ := Expr.eq_deref_of_head_eq hhead
        have hvalues : [x'].map (fun u => (u.outcome C).value) = [x].map fun u => (u.outcome C).value := by
          change (Expr.deref x' v).children.map _ = (Expr.deref x v).children.map _
          simp [hold, hnew, hvalue]
        simpa [outcome_node, Expr.map, Context.eval] using hvalues
      | false => rw [address_eq_none ht, address_eq_none (hlead.trans ht)]
    · intro o ho
      obtain ⟨a, rfl, rfl⟩ : ∃ a, e = .addressOf a ∧ a.outcome C = o := by
        cases e <;> simp [Expr.map] at ho
        exact ⟨_, rfl, ho⟩
      obtain rfl : c = a := by
        have hmem : c ∈ (Expr.addressOf a).children := by simp [hold]
        simpa [Expr.children] using hmem
      simp [hold, hnew, haddress (hself c rfl)]

end Harmless

/-- The operand that a statement assigns to, and what kind of operand that is. -/
def target? : Term → Option (NodeId × Expr Unit)
  | node _ (.assign x _) => some (x.id, x.expr.head)
  | _ => none

/-- The versions of registers that a statement reads: those in it, but for the one it assigns to. -/
def reads : Term → List (String × Option Nat)
  | node _ (.assign x y) => (if x.expr.cell?.isSome then [] else x.cells) ++ y.cells
  | t => t.cells

theorem reads_eq_cells (h : ∀ x y, t.expr ≠ .assign x y) : t.reads = t.cells := by
  obtain ⟨i, e⟩ := t
  cases e <;> first | rfl | exact absurd rfl (h _ _)

theorem reads_assign_left {x x' y : Term} (hhead : x'.expr.head = x.expr.head) (h : x'.cells ⊆ x.cells ++ L) :
    (node i (.assign x' y)).reads ⊆ (node i (.assign x y)).reads ++ L := by
  have hcell := Expr.cell?_eq_of_head_eq hhead
  simp only [reads, hcell, List.append_assoc]
  split
  · simp
  · refine List.append_subset.2 ⟨fun c hc => ?_, by simp⟩
    obtain hc | hc := List.mem_append.1 (h hc) <;> simp [hc]

theorem reads_assign_right {x y y' : Term} (h : y'.cells ⊆ y.cells ++ L) :
    (node i (.assign x y')).reads ⊆ (node i (.assign x y)).reads ++ L := by
  simp only [reads, List.append_assoc]
  exact List.append_subset.2 ⟨by simp, List.Subset.trans h (List.subset_append_right _ _)⟩

theorem exists_within_of_mem_cells {x : String × Option Nat} (h : x ∈ t.cells) :
    ∃ z, Within (node z (.register x.1 x.2)) t := by
  induction t using Term.induction with
  | step i e ih =>
    rw [cells_node, List.mem_append, List.mem_flatMap] at h
    obtain h | ⟨c, hc, h⟩ := h
    · obtain ⟨n, v, rfl, rfl⟩ : ∃ n v, e = .register n v ∧ (n, v) = x := by
        cases e <;> simp_all [Expr.cell?]
      exact ⟨i, .refl _⟩
    · obtain ⟨z, hz⟩ := ih c hc h
      exact ⟨z, .inside hc hz⟩

/-- What a statement reads is in it, and not where it assigns to. -/
theorem exists_within_of_mem_reads {x : String × Option Nat} (h : x ∈ t.reads) (ht : t.preorder.Nodup) :
    ∃ z, Within (node z (.register x.1 x.2)) t ∧ ∀ a y, t.expr = .assign a y → a.id ≠ z := by
  obtain ⟨i, e⟩ := t
  cases e with
  | assign a y => 
    simp only [reads, List.mem_append] at h
    obtain h | h := h
    · split at h
      · cases h
      next hcell =>
        obtain ⟨z, hz⟩ := exists_within_of_mem_cells h
        refine ⟨z, .inside (by simp [Expr.children]) hz, ?_⟩
        rintro _ _ ⟨⟩ rfl
        have ha : Within a (node i (.assign a y)) := .of_mem_children (by simp [Expr.children])
        rw [← hz.eq_of_id_mem (ha.nodup_preorder ht) (by simp)] at hcell
        exact hcell rfl
    · obtain ⟨z, hz⟩ := exists_within_of_mem_cells h
      refine ⟨z, .inside (by simp [Expr.children]) hz, ?_⟩
      rintro _ _ ⟨⟩ rfl
      have hmem : a.id ∈ y.preorder := hz.preorder_subset (by simp)
      simp only [preorder_node, Expr.children, List.flatMap_cons, List.flatMap_nil, List.append_nil,
        List.nodup_cons, List.nodup_append] at ht
      exact ht.2.2.2 _ a.id_mem_preorder _ hmem rfl
  | _ =>
    obtain ⟨z, hz⟩ := exists_within_of_mem_cells (t := node i _) h
    exact ⟨z, hz, by simp⟩

theorem target?_eq_none (h : ∀ x y, t.expr ≠ .assign x y) : t.target? = none := by
  obtain ⟨i, e⟩ := t
  cases e <;> first | rfl | exact absurd rfl (h _ _)

theorem leadsToDeref_of_isAction (h : t.expr.isAction = true) (hne : ∀ x y, t.expr ≠ .assign x y) :
    t.leadsToDeref = false := by
  obtain ⟨i, e⟩ := t
  cases e with
  | assign x y => exact absurd rfl (hne x y)
  | ret x => cases x <;> rfl
  | call | branch | goto => rfl
  | _ => cases h

/-- Only a dereference among the locations leads to one. -/
theorem exists_deref_of_isAssignable (h : t.expr.isAssignable = true) (hleads : t.leadsToDeref = true) :
    ∃ x v, t.expr = .deref x v := by
  obtain ⟨i, e⟩ := t
  cases e with
  | deref x v => exact ⟨x, v, rfl⟩
  | register | var => cases hleads
  | _ => cases h

/-- What comes of a tree depends on the operands of the merges in it alone, as far as merges go. -/
theorem outcome_congr {S : NodeId → List Link} (h : ∀ i xs, Within (node i (.theta xs)) t → S i = C.sources i) :
    t.outcome { C with sources := S } = t.outcome C := by
  induction t using Term.induction with
  | step i e ih =>
    have hmap : e.map (outcome { C with sources := S }) = e.map (outcome C) := by
      refine Expr.ext_children (by simp) ?_
      rw [Expr.children_map, Expr.children_map]
      exact List.map_congr_left fun c hc => ih c hc fun j xs hj => h j xs (.inside hc hj)
    rw [outcome_node, outcome_node, hmap]
    cases e with
    | theta xs => simp [Expr.map, Context.eval, Context.merge, h i xs (.refl _)]
    | ret x => cases x <;> rfl
    | _ => rfl

/-- What the tree of a statement is like in which addresses are taken of dereferences alone. -/
structure IsRegular (t : Term) : Prop where
  action : t.expr.isAction = true
  target : ∀ x y, t.expr = .assign x y → x.expr.isAssignable = true
  addressed : t.NoSumAddressed

/-- The tree of a statement that assigns to the same operand as another one, and reads no more but for the
    registers in `L`. -/
structure Rephrases (L : List (String × Option Nat)) (t t' : Term) : Prop where
  regular : t'.IsRegular
  head : t'.expr.head = t.expr.head
  target : t'.target? = t.target?
  reads : t'.reads ⊆ t.reads ++ L
  value : ∀ x' y', t'.expr = .assign x' y' → ∃ x y, t.expr = .assign x y ∧
    y'.isReplaceable = y.isReplaceable ∧ y'.isInlineable = y.isInlineable

theorem Rephrases.trans {t'' : Term} (h : Rephrases L t t')
    (h' : Rephrases L t' t'') : Rephrases L t t'' := by
  refine ⟨h'.regular, h'.head.trans h.head, h'.target.trans h.target, fun c hc => ?_,
    fun x'' y'' heq => ?_⟩
  · obtain hc | hc := List.mem_append.1 (h'.reads hc)
    · exact h.reads hc
    · exact List.mem_append_right _ hc
  · obtain ⟨x', y', heq', hreplaceable', hinlineable'⟩ := h'.value x'' y'' heq
    obtain ⟨x, y, heq, hreplaceable, hinlineable⟩ := h.value x' y' heq'
    exact ⟨x, y, heq, hreplaceable'.trans hreplaceable, hinlineable'.trans hinlineable⟩

/-- What reads no other registers at one place does not do so further up. -/
theorem Somewhere.cells_subset (h : Somewhere R t t') (hR : ∀ u u', R u u' → u'.cells ⊆ u.cells ++ L) :
    t'.cells ⊆ t.cells ++ L := by
  induction h with
  | here h => exact hR _ _ h
  | inside hhead hold hnew h ih =>
    rw [cells_node, cells_node, hold, hnew, Expr.cell?_eq_of_head_eq hhead]
    intro c hc
    simp only [List.flatMap_append, List.flatMap_cons, List.mem_append] at hc ⊢
    have hmem := ih (a := c)
    rw [List.mem_append] at hmem
    tauto

theorem Rewrites.cells_subset (h : t.Rewrites t') : t'.cells ⊆ t.cells := by
  induction h with
  | refl => exact List.Subset.refl _
  | tail _ h ih =>
    have hstep := h.cells_subset (L := []) fun u u' hrule => by simpa using cells_of_rule hrule
    rw [List.append_nil] at hstep
    exact List.Subset.trans hstep ih

theorem cells_form (t : Term) : t.form.cells = t.cells := by
  induction t using Term.induction with
  | step i e ih =>
    rw [form_node, cells_node, cells_node, Expr.cell?_eq_of_head_eq (Expr.head_map ..), Expr.children_map,
      List.flatMap_map]
    exact congrArg _ (List.flatMap_congr ih)

/-- Simplification leaves what is no arithmetic. -/
theorem Rewrites.head_eq (h : t.Rewrites t') (ht : t.expr.isArithmetic = false) : t'.expr.head = t.expr.head := by
  induction h with
  | refl => rfl
  | tail _ h ih =>
    refine (h.head_eq fun hrule => ?_).trans ih
    have harith := isArithmetic_of_rule hrule
    rw [Expr.isArithmetic_eq_of_head_eq ih, ht] at harith
    cases harith

/-- An assignment that is changed below its topmost node is changed on one of its two sides. -/
theorem Somewhere.of_assign {x y : Term} (h : Somewhere R (node i (.assign x y)) t')
    (hroot : ¬ R (node i (.assign x y)) t') :
    (∃ x', t' = node i (.assign x' y) ∧ Somewhere R x x') ∨ ∃ y', t' = node i (.assign x y') ∧ Somewhere R y y' := by
  cases h with
  | here h => exact absurd h hroot
  | @inside _ _ e' before after c c' hhead hold hnew h =>
    obtain ⟨x', y', rfl⟩ := Expr.eq_assign_of_head_eq hhead
    simp only [Expr.children] at hold hnew
    cases before with
    | nil =>
      obtain ⟨rfl, rfl⟩ : x = c ∧ [y] = after := by simpa using hold
      obtain ⟨rfl, rfl⟩ : x' = c' ∧ y' = y := by simpa using hnew
      exact .inl ⟨x', rfl, h⟩
    | cons d before =>
      obtain ⟨rfl, hy⟩ : x = d ∧ [y] = before ++ c :: after := by simpa using hold
      obtain ⟨rfl, hy'⟩ : x' = x ∧ [y'] = before ++ c' :: after := by simpa using hnew
      obtain ⟨rfl, hafter⟩ | ⟨-, hafter⟩ := List.singleton_eq_append_iff.1 hy
      · obtain ⟨rfl, rfl⟩ : c = y ∧ after = [] := by simpa using hafter
        obtain rfl : y' = c' := by simpa using hy'
        exact .inr ⟨y', rfl, h⟩
      · cases hafter

namespace Harmless

variable (hR : Harmless L R)
include hR

theorem cells_subset (h : Somewhere R t t') : t'.cells ⊆ t.cells ++ L :=
  h.cells_subset hR.cells

theorem isAction_eq_false (h : R u t) : u.expr.isAction = false := by
  obtain harith | ⟨n, v, hregister⟩ := hR.arithmetic _ _ h
  · cases hu : u.expr <;> simp_all [Expr.isArithmetic, Expr.isAction]
  · rw [hregister]
    rfl

/-- A statement is much the same after a change, unless that is at the operand that it assigns to. -/
theorem rephrases (h : Somewhere R t t') (ht : t.IsRegular)
    (htarget : ∀ x y x', t.expr = .assign x y → ¬ R x x') : Rephrases L t t' := by
  have hroot : ¬ R t t' := by
    intro hroot
    have haction := hR.isAction_eq_false hroot
    rw [ht.action] at haction
    cases haction
  have haddressed := hR.noSumAddressed h ht.addressed
  by_cases hassign : ∃ x y, t.expr = .assign x y
  · obtain ⟨x, y, hexpr⟩ := hassign
    obtain ⟨i, e⟩ := t
    obtain rfl : e = .assign x y := hexpr
    have hassignable := ht.target x y rfl
    obtain ⟨x', rfl, hx⟩ | ⟨y', rfl, hy⟩ := h.of_assign hroot
    · cases hx with
      | here hx => exact absurd hx (htarget x y x' rfl)
      | @inside j ex ex' before after c c' hhead hold hnew hx =>
        have hx := Somewhere.inside (i := j) hhead hold hnew hx
        refine ⟨⟨rfl, ?_, haddressed⟩, rfl, ?_, ?_, ?_⟩
        · rintro _ _ ⟨⟩
          exact (Expr.isAssignable_eq_of_head_eq hhead).trans hassignable
        · simp [target?, hhead]
        · exact reads_assign_left hhead (hR.cells_subset hx)
        · rintro _ _ ⟨⟩
          exact ⟨_, _, rfl, rfl, rfl⟩
    · refine ⟨⟨rfl, ?_, haddressed⟩, rfl, rfl, ?_, ?_⟩
      · rintro _ _ ⟨⟩
        exact hassignable
      · exact reads_assign_right (hR.cells_subset hy)
      · rintro _ _ ⟨⟩
        exact ⟨_, _, rfl, hy.fold_eq hR.replaceable, hy.fold_eq hR.inlineable⟩
  · have hne : ∀ x y, t.expr ≠ .assign x y := fun x y hexpr => hassign ⟨x, y, hexpr⟩
    cases h with
    | here h => exact absurd h hroot
    | @inside i e e' before after c c' hhead hold hnew h =>
      have h := Somewhere.inside (i := i) hhead hold hnew h
      have hne' : ∀ x y, (node i e').expr ≠ .assign x y := by
        rintro x y rfl
        obtain ⟨a, b, rfl⟩ := Expr.eq_assign_of_head_eq hhead.symm
        exact hne a b rfl
      refine ⟨⟨?_, fun x y hexpr => absurd hexpr (hne' x y), haddressed⟩, hhead, ?_, ?_,
        fun x y hexpr => absurd hexpr (hne' x y)⟩
      · exact (Expr.isAction_eq_of_head_eq hhead).trans ht.action
      · rw [target?_eq_none hne, target?_eq_none hne']
      · rw [reads_eq_cells hne, reads_eq_cells hne']
        exact hR.cells_subset h

/-- The same comes of a statement after a change that keeps the value there. -/
theorem outcome_eq_of_isRegular (hC : KeepsValue C R) (h : Somewhere R t t') (ht : t.IsRegular) :
    t'.outcome C = t.outcome C := by
  obtain ⟨hvalue, hcalls, haddress⟩ := hR.outcome_eq hC h ht.addressed
  refine Outcome.ext hvalue ?_ hcalls
  by_cases hassign : ∃ x y, t.expr = .assign x y
  · obtain ⟨x, y, hexpr⟩ := hassign
    obtain ⟨i, e⟩ := t
    obtain rfl : e = .assign x y := hexpr
    have hroot : ¬ R (node i (.assign x y)) t' := by
      intro hroot
      cases hR.isAction_eq_false hroot
    obtain ⟨x', rfl, hx⟩ | ⟨y', rfl, -⟩ := h.of_assign hroot
    · have hxaddressed := (addresses_node.1 ht.addressed).1 x (by simp [Expr.children])
      have hxaddress := (hR.outcome_eq hC hx hxaddressed).2.2 (exists_deref_of_isAssignable (ht.target x y rfl))
      simpa [outcome_node, Expr.map, Context.eval] using hxaddress
    · simp [outcome_node, Expr.map, Context.eval]
  · have hne : ∀ x y, t.expr ≠ .assign x y := fun x y hexpr => hassign ⟨x, y, hexpr⟩
    exact haddress (by simp [leadsToDeref_of_isAction ht.action hne])

end Harmless

theorem Rephrases.refl (ht : t.IsRegular) : Rephrases L t t :=
  ⟨ht, rfl, rfl, List.subset_append_left _ _, fun x y h => ⟨x, y, h, rfl, rfl⟩⟩

theorem Rewrites.rephrases (h : t.Rewrites t') (ht : t.IsRegular) : Rephrases L t t' := by
  induction h with
  | refl => exact .refl ht
  | tail _ h ih =>
    refine ih.trans ((harmless_rule L).rephrases h ih.regular fun x y x' hexpr hx => ?_)
    have harith := Expr.isArithmetic_eq_false_of_isAssignable (ih.regular.target x y hexpr)
    rw [isArithmetic_of_rule hx] at harith
    cases harith

/-- The same comes of a statement when it is simplified. -/
theorem Rewrites.outcome_eq (h : t.Rewrites t') (ht : t.IsRegular) (C : Context) : t'.outcome C = t.outcome C := by
  induction h with
  | refl => rfl
  | tail hbefore h ih =>
    have hregular := (Rewrites.rephrases (L := []) hbefore ht).regular
    exact ((harmless_rule []).outcome_eq_of_isRegular (fun _ _ hu => outcome_of_rule hu C) h hregular).trans ih

theorem inlineable_iff : t.Inlineable ↔ t.isInlineable = true := by
  constructor
  · intro h
    induction h with
    | register | constant => rfl
    | binary i op _ _ hx hy => exact Bool.and_eq_true_iff.2 ⟨hx, hy⟩
    | unary i op _ hx => exact hx
  · intro h
    induction t using Term.induction with
    | step i e ih =>
      unfold isInlineable at h ih
      cases e with
      | register n v => exact .register i n v
      | constant w => exact .constant i w
      | binary op x y =>
        rw [isBuiltFrom_binary, Bool.and_eq_true] at h
        exact .binary i op (ih x (by simp [Expr.children]) h.1) (ih y (by simp [Expr.children]) h.2)
      | unary op x => exact .unary i op (ih x (by simp [Expr.children]) h)
      | _ =>
        rw [isBuiltFrom_of_not_isArithmetic rfl] at h
        cases h

namespace Inlineable

variable (h : t.Inlineable)
include h

theorem leadsToDeref_eq : t.leadsToDeref = false := by
  induction h with
  | register | constant | unary => rfl
  | binary i op _ _ hx hy => simp [hx, hy]

theorem addresses (P : Term → Prop) : t.Addresses P := by
  induction h <;> simp_all [addresses_node, Expr.children]

/-- Computing the value has no effect. -/
theorem outcome (C : Context) : (t.outcome C).address = none ∧ (t.outcome C).calls = [] := by
  refine ⟨address_eq_none h.leadsToDeref_eq, ?_⟩
  induction h <;> simp_all [outcome_node, Expr.map, Context.eval]

/-- A copy of the value is the same wherever the registers in it are. -/
theorem of_form (hform : b.form = t.form) : b.Inlineable ∧ b.cells = t.cells ∧ ∀ C C' : Context,
    (∀ c ∈ t.cells, C'.store.register c.1 c.2 = C.store.register c.1 c.2) → b.outcome C' = t.outcome C := by
  induction h generalizing b with
  | register i n v =>
    obtain ⟨j, e⟩ := b
    obtain rfl : e = .register n v := by
      cases e <;> simp_all [Expr.map]
    refine ⟨.register j n v, by simp [Expr.children], fun C C' hC => ?_⟩
    simp [outcome_node, Expr.map, Context.eval, hC (n, v) (by simp [Expr.cell?])]
  | constant i w =>
    obtain ⟨j, e⟩ := b
    obtain rfl : e = .constant w := by
      cases e <;> simp_all [Expr.map]
    exact ⟨.constant j w, by simp [Expr.children], fun C C' _ => rfl⟩
  | @binary i op x y hx hy ihx ihy =>
    obtain ⟨j, e⟩ := b
    obtain ⟨x', y', rfl, hx', hy'⟩ : ∃ x' y', e = .binary op x' y' ∧ x'.form = x.form ∧ y'.form = y.form := by
      cases e <;> simp_all [Expr.map]
    obtain ⟨hbx, hcx, hox⟩ := ihx hx'
    obtain ⟨hby, hcy, hoy⟩ := ihy hy'
    refine ⟨.binary j op hbx hby, by simp [Expr.children, Expr.cell?, hcx, hcy], fun C C' hC => ?_⟩
    simp only [cells_node, Expr.children, List.flatMap_cons, List.mem_append] at hC
    have hx := hox C C' fun c hc => hC c (.inr (.inl hc))
    have hy := hoy C C' fun c hc => hC c (.inr (.inr (.inl hc)))
    simp [outcome_node, Expr.map, Context.eval, hx, hy]
  | @unary i op x hx ih =>
    obtain ⟨j, e⟩ := b
    obtain ⟨x', rfl, hx'⟩ : ∃ x', e = .unary op x' ∧ x'.form = x.form := by
      cases e <;> simp_all [Expr.map]
    obtain ⟨hbx, hcx, hox⟩ := ih hx'
    refine ⟨.unary j op hbx, by simp [Expr.children, Expr.cell?, hcx], fun C C' hC => ?_⟩
    have hx := hox C C' fun c hc => hC c (by simp [Expr.children, hc])
    simp [outcome_node, Expr.map, Context.eval, hx]

end Inlineable

/-- Putting a value that is safe to move in the place of a register is harmless. -/
theorem harmless_inline {x : NodeId} {n : String} {v : Option Nat} (hb : b.Inlineable) :
    Harmless b.cells fun u u' => u = node x (.register n v) ∧ u' = b where
  arithmetic := by
    rintro u u' ⟨rfl, rfl⟩
    exact .inr ⟨n, v, rfl⟩
  leads := by
    rintro u u' ⟨rfl, rfl⟩
    exact hb.leadsToDeref_eq
  addresses := by
    rintro u u' P ⟨rfl, rfl⟩ -
    exact hb.addresses P
  cells := by
    rintro u u' ⟨rfl, rfl⟩
    exact List.subset_append_right _ _
  replaceable := by
    rintro u u' ⟨rfl, rfl⟩
    exact isReplaceable_of_isInlineable (inlineable_iff.1 hb)
  inlineable := by
    rintro u u' ⟨rfl, rfl⟩
    exact inlineable_iff.1 hb

theorem keepsValue_inline {x : NodeId} {n : String} {v : Option Nat} (hb : b.Inlineable)
    (hvalue : (b.outcome C).value = C.store.register n v) :
    KeepsValue C fun u u' => u = node x (.register n v) ∧ u' = b := by
  rintro u u' ⟨rfl, rfl⟩
  exact ⟨hvalue, (hb.outcome C).2⟩

end Term

namespace Store

variable {σ : Store} {t t' : Term} {o : Outcome}

/-- What a statement does depends on what comes of it and on the operand that it assigns to. -/
theorem after_congr (h : t'.target? = t.target?) : σ.after t' o = σ.after t o := by
  have hwrite : ∀ {x x' : Term}, x'.expr.head = x.expr.head → σ.write x' o = σ.write x o := by
    rintro ⟨j, e⟩ ⟨j', e'⟩ hhead
    unfold write
    cases e <;> cases e' <;> simp_all [Expr.head, Expr.map]
  obtain ⟨i, e⟩ := t
  obtain ⟨i', e'⟩ := t'
  unfold after
  cases e <;> cases e' <;> simp_all [Term.target?]
  rw [hwrite h.2]
  exact ⟨rfl, rfl, rfl⟩

end Store

end FrameRecovery
