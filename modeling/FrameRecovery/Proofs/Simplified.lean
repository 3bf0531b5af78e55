import FrameRecovery.Proofs.Simplify

namespace FrameRecovery

namespace Term

/-- What the nodes that are no arithmetic are worth: registers, variables, memory, calls, addresses and all
    others, each from its number, its kind and the values of its operands. -/
abbrev Valuation := NodeId → Expr Word → Word

/-- The value of a node: arithmetic is computed from the values of the operands. -/
def Valuation.at (V : Valuation) (i : NodeId) : Expr Word → Word
  | .constant w => w
  | .binary op a b => op.eval a b
  | .unary op a => op.eval a
  | e => V i e

/-- The value of a tree. -/
def value (V : Valuation) (t : Term) : Word :=
  t.fold V.at

/-- The nodes that are no arithmetic, each with its kind and before those below it, left to right. -/
def atoms (t : Term) : List (NodeId × Expr Unit) :=
  t.fold fun i e => (if e.isArithmetic then [] else [(i, e.head)]) ++ e.children.flatten

variable {V : Valuation} {t t' t'' c c' : Term} {i : NodeId} {e e' : Expr Term}

theorem value_node : (node i e).value V = V.at i (e.map (value V)) := by
  unfold value
  rw [fold_node]

@[simp] theorem value_constant {w : Word} : (node i (.constant w)).value V = w := by
  rw [value_node]
  rfl

@[simp] theorem value_binary {op : BinaryOp} {x y : Term} :
    (node i (.binary op x y)).value V = op.eval (x.value V) (y.value V) := by
  rw [value_node]
  rfl

@[simp] theorem value_unary {op : UnaryOp} {x : Term} : (node i (.unary op x)).value V = op.eval (x.value V) := by
  rw [value_node]
  rfl

@[simp] theorem atoms_node : (node i e).atoms =
    (if e.isArithmetic then [] else [(i, e.head)]) ++ e.children.flatMap atoms := by
  unfold atoms
  rw [fold_node, Expr.head_map, Expr.children_map, List.flatMap_def,
    Expr.isArithmetic_eq_of_head_eq (Expr.head_map _ e)]

/-- Two trees have the same value, and if one is no arithmetic, they are the same node. -/
structure Alike (t t' : Term) : Prop where
  value_eq : ∀ V, t'.value V = t.value V
  same : t.expr.isArithmetic = false → t'.id = t.id ∧ t'.expr.head = t.expr.head

theorem Alike.refl (t : Term) : Alike t t :=
  ⟨fun _ => rfl, fun _ => ⟨rfl, rfl⟩⟩

theorem Alike.trans (h : Alike t t') (h' : Alike t' t'') : Alike t t'' := by
  refine ⟨fun V => (h'.value_eq V).trans (h.value_eq V), fun ht => ?_⟩
  obtain ⟨hid, hhead⟩ := h.same ht
  obtain ⟨hid', hhead'⟩ := h'.same ((Expr.isArithmetic_eq_of_head_eq hhead).trans ht)
  exact ⟨hid'.trans hid, hhead'.trans hhead⟩

theorem Alike.forall₂_trans {ts ts' ts'' : List Term} (h : List.Forall₂ Alike ts ts')
    (h' : List.Forall₂ Alike ts' ts'') : List.Forall₂ Alike ts ts'' := by
  induction h generalizing ts'' with
  | nil => exact h'
  | cons hc _ ih =>
    cases h' with
    | cons hc' hrest' => exact .cons (hc.trans hc') (ih hrest')

/-- Every node of a tree that is no arithmetic is a node of another tree, of the same kind and on operands
    alike. -/
def Keeps (t t' : Term) : Prop :=
  ∀ i e, Within (node i e) t → e.isArithmetic = false →
    ∃ e', Within (node i e') t' ∧ e'.head = e.head ∧ List.Forall₂ Alike e.children e'.children

theorem Keeps.trans (h : Keeps t t') (h' : Keeps t' t'') : Keeps t t'' := by
  intro i e hwithin he
  obtain ⟨e', hwithin', hhead, hchildren⟩ := h i e hwithin he
  obtain ⟨e'', hwithin'', hhead', hchildren'⟩ := h' i e' hwithin' ((Expr.isArithmetic_eq_of_head_eq hhead).trans he)
  exact ⟨e'', hwithin'', hhead'.trans hhead, Alike.forall₂_trans hchildren hchildren'⟩

theorem Keeps.of_within (h : Within t t') : Keeps t t' := fun _ e hwithin _ =>
  ⟨e, hwithin.trans h, rfl, List.forall₂_same.2 fun c _ => .refl c⟩

/-- Of arithmetic only the operands have to be kept. -/
theorem Keeps.of_children (he : e.isArithmetic = true) (h : ∀ c ∈ e.children, Keeps c t') : Keeps (node i e) t' := by
  intro j e₁ hwithin he₁
  cases hwithin with
  | refl => simp [he] at he₁
  | inside hc hwithin => exact h _ hc j e₁ hwithin he₁

theorem Keeps.of_binary {op : BinaryOp} {x y : Term} (hx : Keeps x t') (hy : Keeps y t') :
    Keeps (node i (.binary op x y)) t' :=
  .of_children rfl (by simpa [Expr.children] using ⟨hx, hy⟩)

theorem Keeps.of_constant {w : Word} : Keeps (node i (.constant w)) t' :=
  .of_children rfl (by simp [Expr.children])

end Term

namespace Simplify

variable {t t' z : Term} {i : NodeId} {amount : Word} {V : Term.Valuation}

theorem IsOffset.value_eq (h : IsOffset i z amount t) : t.value V = z.value V + amount := by
  obtain ⟨rfl, rfl⟩ | ⟨-, k, rfl⟩ := h
  · rw [Int64.add_zero]
  · simp [eval_written]

theorem IsOffset.atoms_eq (h : IsOffset i z amount t) : t.atoms = z.atoms := by
  obtain ⟨-, rfl⟩ | ⟨-, k, rfl⟩ := h
  · rfl
  · simp [Expr.isArithmetic, Expr.children]

theorem IsOffset.keeps (h : IsOffset i z amount t) : z.Keeps t := by
  obtain ⟨-, rfl⟩ | ⟨-, k, rfl⟩ := h
  · exact .of_within (.refl t)
  · exact .of_within (.of_mem_children List.mem_cons_self)

/-- No rule changes the value. -/
theorem Rule.value_eq (h : Rule t t') : t'.value V = t.value V := by
  cases h with
  | binary => simp
  | unary => simp
  | turn => simp [BinaryOp.eval, Int64.add_comm]
  | write hamount hoffset => rw [hoffset.value_eq, Term.value_binary, Term.value_constant, eval_of_signedAmount hamount]
  | @join _ _ _ _ _ _ _ _ _ _ outer inner houter hinner hoffset =>
    simp only [hoffset.value_eq, Term.value_binary, Term.value_constant, eval_of_signedAmount houter,
      eval_of_signedAmount hinner]
    rw [Int64.add_assoc, Int64.add_comm inner]

/-- No rule drops, adds or moves anything but arithmetic. -/
theorem Rule.atoms_eq (h : Rule t t') : t'.atoms = t.atoms := by
  cases h with
  | binary => simp [Expr.isArithmetic, Expr.children]
  | unary => simp [Expr.isArithmetic, Expr.children]
  | turn => simp [Expr.isArithmetic, Expr.children]
  | write hamount hoffset => simp [hoffset.atoms_eq, Expr.isArithmetic, Expr.children]
  | join houter hinner hoffset => simp [hoffset.atoms_eq, Expr.isArithmetic, Expr.children]

theorem Rule.isArithmetic (h : Rule t t') : t.expr.isArithmetic = true := by
  cases h <;> rfl

/-- What is no arithmetic is where it was, or further up. -/
theorem Rule.keeps (h : Rule t t') : t.Keeps t' := by
  cases h with
  | binary => exact .of_binary .of_constant .of_constant
  | unary => exact .of_children rfl (by simpa [Expr.children] using .of_constant)
  | turn => exact .of_binary .of_constant (.of_within (.of_mem_children List.mem_cons_self))
  | write _ hoffset => exact .of_binary hoffset.keeps .of_constant
  | join _ _ hoffset => exact .of_binary (.of_binary hoffset.keeps .of_constant) .of_constant

end Simplify

namespace Term

variable {t t' t'' : Term}

/-- One tree is another one computed in another way: it has the same value, and what is no arithmetic is in
    both equally often and in the same order, on operands alike. -/
structure Recomputed (t t' : Term) : Prop where
  alike : Alike t t'
  atoms_eq : t'.atoms = t.atoms
  keeps : Keeps t t'

theorem Recomputed.refl (t : Term) : Recomputed t t :=
  ⟨.refl t, rfl, .of_within (.refl t)⟩

theorem Recomputed.trans (h : Recomputed t t') (h' : Recomputed t' t'') : Recomputed t t'' :=
  ⟨h.alike.trans h'.alike, h'.atoms_eq.trans h.atoms_eq, h.keeps.trans h'.keeps⟩

theorem Recomputed.of_rule (h : Simplify.Rule t t') : Recomputed t t' :=
  ⟨⟨fun _ => h.value_eq, fun hne => by simp [h.isArithmetic] at hne⟩, h.atoms_eq, h.keeps⟩

/-- A tree in which one operand is computed in another way is computed in another way. -/
theorem Recomputed.inside {i : NodeId} {e e' : Expr Term} {before after : List Term} {c c' : Term}
    (hhead : e'.head = e.head) (hold : e.children = before ++ c :: after)
    (hnew : e'.children = before ++ c' :: after) (h : Recomputed c c') : Recomputed (node i e) (node i e') := by
  obtain ⟨halike, hatoms, hkeeps⟩ := h
  have hsame : ∀ ts : List Term, List.Forall₂ Alike ts ts := fun ts => List.forall₂_same.2 fun d _ => .refl d
  have hchildren : List.Forall₂ Alike e.children e'.children := by
    rw [hold, hnew]
    exact List.rel_append (hsame before) (.cons halike (hsame after))
  have hbelow : ∀ d ∈ e.children, Keeps d (node i e') := by
    intro d hd
    have hc' : Keeps c' (node i e') := .of_within (.of_mem_children (by simp [hnew]))
    rw [hold, List.mem_append, List.mem_cons] at hd
    rcases hd with hd | rfl | hd
    · exact .of_within (.of_mem_children (by simp [hnew, hd]))
    · exact hkeeps.trans hc'
    · exact .of_within (.of_mem_children (by simp [hnew, hd]))
  refine ⟨⟨fun V => ?_, fun _ => ⟨rfl, hhead⟩⟩, ?_, fun j e₁ hwithin he₁ => ?_⟩
  · rw [value_node, value_node]
    congr 1
    refine Expr.ext_children (by simp [hhead]) ?_
    simp [hold, hnew, halike.value_eq]
  · simp [hold, hnew, hatoms, hhead, Expr.isArithmetic_eq_of_head_eq hhead]
  · cases hwithin with
    | refl => exact ⟨e', .refl _, hhead, hchildren⟩
    | inside hd hwithin => exact hbelow _ hd j e₁ hwithin he₁

theorem Somewhere.recomputed (h : Somewhere Simplify.Rule t t') : Recomputed t t' := by
  induction h with
  | here h => exact .of_rule h
  | inside hhead hold hnew _ ih => exact ih.inside hhead hold hnew

theorem Rewrites.recomputed (h : t.Rewrites t') : Recomputed t t' := by
  induction h with
  | refl => exact .refl t
  | tail _ h ih => exact ih.trans h.recomputed

end Term

namespace Simplify

open Flow

variable {f : Flow} {p : Place} {t : Term}

theorem step_of_irreducible (hf : f.Sits p t) (ht : isReducible t = false) :
    Gives (step t.id) f fun r g => r = none ∧ g = f := by
  refine (step_gives hf).mono ?_
  rintro (_ | y) g hstep
  · exact ⟨rfl, hstep.1⟩
  · exact absurd hstep.1 (by simp [ht])

/-- Nothing is done on a normal tree. -/
theorem within_of_normal {depth : Nat} (hdepth : t.height ≤ depth) (hf : f.Sits p t) (ht : Normal t) :
    Gives (within depth t.id) f fun r g => r = (t.id, 0) ∧ g = f := by
  induction depth generalizing p t with
  | zero =>
    have := height_pos t
    omega
  | succ depth ih =>
    obtain ⟨i, e⟩ := t
    obtain ⟨htop, hbelow⟩ := normal_node_iff.1 ht
    unfold within
    refine .of_bind (.of_view (children_eq hf.stands.shape_id) ?_)
    refine .of_bind ((Gives.of_mapM (k := fun c => do return (← within depth c).2)
      (I := fun ids counts g => ids ⊆ e.children.map Term.id ∧ counts.foldl (· + ·) 0 = 0 ∧ g = f) ?_
      (e.map Term.id).children (b := []) (by simp)).mono ?_)
    · rintro _ ids counts g ⟨hids, hcounts, rfl⟩
      obtain ⟨c, hc, rfl⟩ := List.mem_map.1 (hids List.mem_cons_self)
      have hheight := Term.height_lt_of_mem_children (i := i) hc
      refine .of_bind ((ih (by omega) (hf.child hc) (hbelow c hc)).mono ?_)
      rintro _ g ⟨rfl, rfl⟩
      exact .of_pure ⟨fun x hx => hids (List.mem_cons_of_mem _ hx), by simpa using hcounts, rfl⟩
    · rintro counts g ⟨-, hcounts, rfl⟩
      refine .of_bind (.of_get (.of_bind ?_))
      unfold stepBound steps
      refine .of_bind ((step_of_irreducible hf htop).mono ?_)
      rintro _ g ⟨rfl, rfl⟩
      exact .of_pure (.of_pure ⟨congrArg (Prod.mk i) hcounts, rfl⟩)

end Simplify

namespace Edit

open Flow

variable {f : Flow} {p : Place} {t : Term}

/-- Simplifying never fails. The tree that it gives stands in the place of the one that was there and is that
    one computed in another way. All links stay, and outside the tree nothing changes but the reference to it. -/
theorem simplify_recomputes (hf : f.Sits p t) : ∃ t' n g, (simplify t.id).run f = .ok ((t'.id, n), g) ∧
    f.Replaces g p t t' ∧ t.Recomputed t' ∧ t'.preorder.Nodup ∧ g.linkOf = f.linkOf ∧
    ∀ x m, f.node x = .ok m → x ∉ t.preorder → g.node x = .ok (if p = .child x then
      { m with expr := m.expr.map fun c => if c = t.id then t'.id else c } else m) := by
  obtain ⟨⟨_, n⟩, g, hrun, t', rfl, ⟨hreplaces, hlink, hrewrites, -, -⟩, -, -, -⟩ := simplify_gives hf
  refine ⟨t', n, g, hrun, hreplaces, hrewrites.recomputed, hreplaces.sits.nodup, hlink, fun x m hm hx => ?_⟩
  have hm' := getElem?_of_node hm
  have hshape : f.shapeAt x = some (m.expr, m.place) := by simp [shapeAt, hm']
  have hlinkOf : g.linkOf x = m.link := by
    rw [hlink, linkOf, hm']
    rfl
  split
  next hp => rw [node_eq (hreplaces.above x _ _ hp hshape), hlinkOf]
  next hp => rw [node_eq ((hreplaces.other x (by simp [hshape]) hx hp).trans hshape), hlinkOf]

/-- The expression of `return (r1 + 0x7fffffffffffffff) + 1`. -/
def wrappingSum : Term :=
  .node ⟨5⟩ (.ret (some (.node ⟨4⟩ (.binary .add (.node ⟨2⟩ (.binary .add (.node ⟨0⟩ (.register "r1" none))
    (.node ⟨1⟩ (.constant Int64.maxValue)))) (.node ⟨3⟩ (.constant 1))))))

/-- A flow of one statement, in which `wrappingSum` stands. -/
def wrappingFlow : Flow where
  entry := 0
  nodes := #[⟨.register "r1" none, .child ⟨2⟩, .use none⟩, ⟨.constant Int64.maxValue, .child ⟨2⟩, .unlinked⟩,
    ⟨.binary .add ⟨0⟩ ⟨1⟩, .child ⟨4⟩, .unlinked⟩, ⟨.constant 1, .child ⟨4⟩, .unlinked⟩,
    ⟨.binary .add ⟨2⟩ ⟨3⟩, .child ⟨5⟩, .unlinked⟩, ⟨.ret (some ⟨4⟩), .root ⟨0⟩, .unlinked⟩]
  statements := #[⟨0, ⟨5⟩, 0, false⟩]
  blocks := SortedMap.empty.insert 0 ⟨0, [0], [⟨0⟩], []⟩

theorem wrappingFlow_sits : wrappingFlow.Sits (.root ⟨0⟩) wrappingSum := by
  have hleaf : ∀ {q i e}, wrappingFlow.shapeAt i = some (e.map Term.id, q) → e.children = [] →
      wrappingFlow.Stands q (.node i e) := fun h he => .node h (by simp [he]) (by simp [he])
  refine ⟨.node rfl (by decide) ?_, by decide, nofun, fun s hs => ?_⟩
  · simp only [Expr.children, Option.mem_toList, Option.some.injEq, forall_eq']
    refine .node rfl (by decide) ?_
    simp only [Expr.children, List.mem_cons, List.not_mem_nil, or_false, forall_eq_or_imp, forall_eq]
    refine ⟨.node rfl (by decide) ?_, hleaf rfl rfl⟩
    simp only [Expr.children, List.mem_cons, List.not_mem_nil, or_false, forall_eq_or_imp, forall_eq]
    exact ⟨hleaf rfl rfl, hleaf rfl rfl⟩
  · cases hs
    exact ⟨_, rfl, rfl⟩

theorem simplify_recomputes_wrappingSum : wrappingFlow.Sits (.root ⟨0⟩) wrappingSum ∧
    ∃ t' n g, (simplify wrappingSum.id).run wrappingFlow = .ok ((t'.id, n), g) ∧
      wrappingFlow.Replaces g (.root ⟨0⟩) wrappingSum t' ∧ wrappingSum.Recomputed t' ∧ t'.preorder.Nodup ∧
      g.linkOf = wrappingFlow.linkOf ∧
      ∀ x m, wrappingFlow.node x = .ok m → x ∉ wrappingSum.preorder → g.node x = .ok (if Place.root ⟨0⟩ = .child x then
        { m with expr := m.expr.map fun c => if c = wrappingSum.id then t'.id else c } else m) :=
  ⟨wrappingFlow_sits, simplify_recomputes wrappingFlow_sits⟩

/-- Simplifying ends in a normal form: afterwards no rule applies at any node of the tree, so that
    simplifying it again does nothing. -/
theorem simplify_normalizes (hf : f.Sits p t) : ∃ t' n g, (simplify t.id).run f = .ok ((t'.id, n), g) ∧
    f.Replaces g p t t' ∧ (∀ x ∈ t'.preorder, (Simplify.step x).run g = .ok (none, g)) ∧
    (simplify t'.id).run g = .ok ((t'.id, 0), g) := by
  obtain ⟨⟨_, n⟩, g, hrun, t', rfl, hreduces, hnormal, -, -⟩ := simplify_gives hf
  have hsits := hreduces.replaces.sits
  refine ⟨t', n, g, hrun, hreduces.replaces, fun x hx => ?_, ?_⟩
  · obtain ⟨u, hu, rfl⟩ := Term.exists_within_of_mem_preorder hx
    obtain ⟨q, hq, -⟩ := Replaces.lift_within hsits hu
    obtain ⟨_, _, hstep, rfl, rfl⟩ := Simplify.step_of_irreducible hq (hnormal u hu)
    exact hstep
  · obtain ⟨_, _, hagain, rfl, rfl⟩ :=
      Simplify.within_of_normal (Nat.le_succ_of_le hsits.stands.height_le) hsits hnormal
    exact hagain

theorem simplify_normalizes_wrappingSum : wrappingFlow.Sits (.root ⟨0⟩) wrappingSum ∧
    ∃ t' n g, (simplify wrappingSum.id).run wrappingFlow = .ok ((t'.id, n), g) ∧
      wrappingFlow.Replaces g (.root ⟨0⟩) wrappingSum t' ∧
      (∀ x ∈ t'.preorder, (Simplify.step x).run g = .ok (none, g)) ∧
      (simplify t'.id).run g = .ok ((t'.id, 0), g) :=
  ⟨wrappingFlow_sits, simplify_normalizes wrappingFlow_sits⟩

end Edit

end FrameRecovery
