import FrameRecovery.Lowering
import FrameRecovery.Proofs.ControlFlow
import FrameRecovery.Proofs.Flow.Wired
import FrameRecovery.Proofs.Legible

namespace FrameRecovery

namespace Expr

variable {α β : Type}

/-- Whether the expression may come from an instruction: nothing has a version yet, and there are
    no merges and no variables. -/
def isPlain : Expr α → Bool
  | register _ v | deref _ v => v.isNone
  | var _ _ _ | theta _ => false
  | _ => true

/-- Whether the expression may come from an operand. -/
def isPlainOperand : Expr α → Bool
  | register _ v | deref _ v => v.isNone
  | addressOf _ | constant _ | binary _ _ _ | unary _ _ | call _ _ => true
  | _ => false

/-- Whether the expression may be the outermost one of a statement. -/
def isAction : Expr α → Bool
  | call _ _ | assign _ _ | branch _ _ | goto _ | ret _ => true
  | _ => false

theorem isPlain_of_isPlainOperand {e : Expr α} (h : e.isPlainOperand = true) : e.isPlain = true := by
  cases e <;> simp_all [isPlain, isPlainOperand]

theorem isPlain_of_isAction {e : Expr α} (h : e.isAction = true) : e.isPlain = true := by
  cases e <;> simp_all [isPlain, isAction]

theorem isPlain_map (f : α → β) (e : Expr α) : (e.map f).isPlain = e.isPlain := by
  cases e <;> rfl

theorem version?_eq_none_of_isPlain {e : Expr α} (h : e.isPlain = true) : e.version? = none := by
  cases e <;> simp_all [isPlain, version?]

theorem isAssignable_map (f : α → β) (e : Expr α) : (e.map f).isAssignable = e.isAssignable := by
  cases e <;> rfl

end Expr

namespace Locations

/-- The locations that instructions have: registers with names, and dereferences without
    versions. -/
def listed : Locations :=
  ⟨IsRegisterName, fun v => v = none, fun _ _ _ => False⟩

/-- Locations as instructions have them, but for the versions of dereferences. -/
def named : Locations :=
  ⟨IsRegisterName, fun _ => True, fun _ _ _ => False⟩

theorem named_of_listed {α : Type} {e : Expr α} (h : listed.Admits e) : named.Admits e := by
  cases e <;> trivial

end Locations

namespace Term

/-- A tree that may come from an operand. -/
def IsOperand (t : Term) : Prop :=
  ∀ u, Within u t → u.expr.isPlainOperand = true ∧ Locations.listed.Admits u.expr

/-- A tree that may come from an instruction. -/
structure IsAction (t : Term) : Prop where
  action : t.expr.isAction = true
  children : ∀ c ∈ t.expr.children, c.IsOperand
  assign : ∀ x y, t.expr = .assign x y → x.expr.isAssignable = true

/-- Below its topmost node a tree is one that its text may identify. -/
def LegibleBelow (t : Term) : Prop :=
  ∀ c ∈ t.expr.children, c.Legible

theorem Legible.legibleBelow {t : Term} (h : t.Legible) : t.LegibleBelow := by
  unfold LegibleBelow
  cases h <;> simp_all [Expr.children]

theorem IsOperand.node {x : NodeId} {e : Expr Term} (he : e.isPlainOperand = true)
    (hadmits : Locations.listed.Admits e) (hchildren : ∀ c ∈ e.children, c.IsOperand) : (node x e).IsOperand := by
  intro u hu
  cases hu with
  | refl => exact ⟨he, hadmits⟩
  | inside hc hu => exact hchildren _ hc u hu

theorem IsOperand.ne_assign {t : Term} (h : t.IsOperand) (x y : Term) : t.expr ≠ .assign x y := by
  intro heq
  obtain ⟨hself, -⟩ := h t (.refl t)
  simp [heq, Expr.isPlainOperand] at hself

/-- A call is an operand that may be an instruction of its own. -/
theorem IsOperand.isAction {t : Term} (h : t.IsOperand) (hcall : t.expr.isCall = true) : t.IsAction := by
  refine ⟨?_, fun c hc u hu => h u ?_, fun x y he => absurd he (h.ne_assign x y)⟩
  · cases he : t.expr <;> simp_all [Expr.isAction, Expr.isCall]
  · obtain ⟨i, e⟩ := t
    exact .inside hc hu

theorem IsAction.plain {t u : Term} (h : t.IsAction) (hu : Within u t) : u.expr.isPlain = true := by
  cases hu with
  | refl => exact Expr.isPlain_of_isAction h.action
  | inside hc hu => exact Expr.isPlain_of_isPlainOperand (h.children _ hc u hu).1

theorem IsAction.admits {t u : Term} (h : t.IsAction) (hu : Within u t) : Locations.listed.Admits u.expr := by
  cases hu with
  | refl =>
    have haction := h.action
    cases he : t.expr <;> simp_all [Expr.isAction] <;> trivial
  | inside hc hu => exact (h.children _ hc u hu).2

end Term

/-- The operands in the statements of a flow are ones that their texts may identify. -/
def Flow.LegibleBelow (f : Flow) : Prop :=
  ∀ s t, f.Holds s t → t.LegibleBelow

/-- A flow of statements that come from instructions. -/
structure Flow.Plain (f : Flow) : Prop where
  forest : f.Forest
  closed : f.Closed
  unlinked : ∀ x, f.linkOf x = .unlinked
  plain : ∀ x e, f.exprAt x = some e → e.isPlain = true
  location : ∀ x e, f.exprAt x = some e → Locations.listed.Admits e
  target : ∀ r d y, f.exprAt r = some (.assign d y) → ∃ e, f.exprAt d = some e ∧ e.isAssignable = true
  rooted : f.Rooted
  action : ∀ s t, f.Holds s t → t.IsAction

theorem Flow.Plain.sound {f : Flow} (hf : f.Plain) : f.Sound .listed := by
  have hne : ∀ {x l}, l ≠ .unlinked → f.linkOf x ≠ l := fun hl h => hl (h ▸ hf.unlinked _)
  refine ⟨hf.forest, ⟨hf.closed, fun r d y hr => ⟨hf.target r d y hr, fun z => hne nofun⟩,
    fun x hx => absurd (hf.unlinked x) hx, hf.location⟩, ?_,
    fun x hx => absurd (hf.unlinked x) hx, fun x e _ _ => .inl (hf.unlinked x),
    fun u d n v hu => absurd hu (hne nofun)⟩
  exact ⟨fun u d => by simp [hf.unlinked, Link.uses], fun d => by simp [hf.unlinked, Link.uses]⟩

namespace Lowering

variable {l : Listing}

/-- What a tree takes over from the operand that it comes from. -/
structure Lowered (x : Operand) (t : Term) : Prop where
  operand : t.IsOperand
  isAssignable_eq : t.expr.isAssignable = x.isAssignable
  isCall_eq : t.expr.isCall = x.isCall
  constant?_eq : t.constant? = x.constant?
  legible : x.Readable → t.Legible

/-- What adding the nodes of an operand comes to. -/
private def Adds (g : Flow) (i : NodeId) (h : Flow) (P : Term → Prop) : Prop :=
  ∃ t, t.id = i ∧ P t ∧ g.Pending h [t] ∧ h.linkOf = g.linkOf

private theorem alloc_gives {f g : Flow} {e : Expr Term} {P : Term → Prop} (hfg : f.Pending g e.children)
    (hlink : g.linkOf = f.linkOf) (hP : ∀ x, P (.node x e)) :
    Gives (Edit.alloc (e.map Term.id)) g fun i h => Adds f i h P := by
  refine hfg.alloc_gives.mono ?_
  rintro i h ⟨hpending, -, -, hlinkh⟩
  exact ⟨.node i e, rfl, hP i, hpending, hlinkh.trans hlink⟩

mutual

/-- The nodes of an operand are a tree that nothing holds yet. -/
theorem operand_gives (x : Operand) (hx : x.Named) (g : Flow) :
    Gives (operand x) g fun i h => Adds g i h (Lowered x) := by
  cases x with
  | register name =>
    exact alloc_gives (e := .register name none) (.nil g) rfl fun x =>
      ⟨.node rfl hx nofun, rfl, rfl, rfl, fun hread => .register hread.1⟩
  | constant w =>
    exact alloc_gives (e := .constant w) (.nil g) rfl fun x =>
      ⟨.node rfl trivial nofun, rfl, rfl, rfl, fun _ => .constant⟩
  | deref x =>
    refine .of_bind ((operand_gives x hx g).mono ?_)
    rintro _ h ⟨t, rfl, ht, hpending, hlink⟩
    exact alloc_gives (e := .deref t none) hpending hlink fun x =>
      ⟨.node rfl rfl (by simpa [Expr.children] using ht.operand), rfl, rfl, rfl, fun hread => .deref (ht.legible hread)⟩
  | addressOf x =>
    refine .of_bind ((operand_gives x hx g).mono ?_)
    rintro _ h ⟨t, rfl, ht, hpending, hlink⟩
    exact alloc_gives (e := .addressOf t) hpending hlink fun x =>
      ⟨.node rfl trivial (by simpa [Expr.children] using ht.operand), rfl, rfl, rfl,
        fun hread => .addressOf (ht.legible hread)⟩
  | unary op x =>
    refine .of_bind ((operand_gives x hx g).mono ?_)
    rintro _ h ⟨t, rfl, ht, hpending, hlink⟩
    refine alloc_gives (e := .unary op t) hpending hlink fun x =>
      ⟨.node rfl trivial (by simpa [Expr.children] using ht.operand), rfl, rfl, rfl, fun hread => ?_⟩
    cases op with
    | neg => exact .neg (ht.legible hread.1) (ht.constant?_eq.trans hread.2)
    | not => exact .not (ht.legible hread)
  | binary op x y =>
    refine .of_bind ((operand_gives x hx.1 g).mono ?_)
    rintro _ h ⟨t, rfl, ht, hpending, hlink⟩
    refine .of_bind ((operand_gives y hx.2 h).mono ?_)
    rintro _ h' ⟨t', rfl, ht', hpending', hlink'⟩
    refine alloc_gives (e := .binary op t t') ?_ (hlink'.trans hlink) fun x =>
      ⟨.node rfl trivial (by simpa [Expr.children] using ⟨ht.operand, ht'.operand⟩), rfl, rfl, rfl,
        fun hread => .binary (ht.legible hread.1) (ht'.legible hread.2)⟩
    exact hpending.snoc hpending'.grows_of_singleton (hpending'.stands t' (by simp))
  | call x ys =>
    refine .of_bind ((operand_gives x hx.1 g).mono ?_)
    rintro _ h ⟨t, rfl, ht, hpending, hlink⟩
    refine .of_bind ((operands_gives ys hx.2 hpending).mono ?_)
    rintro _ h' ⟨ts, rfl, hts, hlegible, hpending', hlink'⟩
    refine alloc_gives (e := .call t ts) hpending' (hlink'.trans hlink) fun x =>
      ⟨.node rfl trivial fun c hc => ?_, rfl, rfl, rfl, fun hread => .call (ht.legible hread.1) (hlegible hread.2)⟩
    rcases List.mem_cons.1 hc with rfl | hc
    · exact ht.operand
    · exact hts c hc

theorem operands_gives (xs : List Operand) (hxs : Operand.AllNamed xs) {f g : Flow} {ts : List Term} (hfg : f.Pending g ts) :
    Gives (operands xs) g fun is h => ∃ us : List Term, us.map Term.id = is ∧
      (∀ u ∈ us, u.IsOperand) ∧ (Operand.AllReadable xs → ∀ u ∈ us, u.Legible) ∧
      f.Pending h (ts ++ us) ∧ h.linkOf = g.linkOf := by
  cases xs with
  | nil => exact .of_pure ⟨[], rfl, nofun, nofun, by simpa using hfg, rfl⟩
  | cons x rest =>
    refine .of_bind ((operand_gives x hxs.1 g).mono ?_)
    rintro _ h ⟨t, rfl, ht, hpending, hlink⟩
    have hsnoc := hfg.snoc hpending.grows_of_singleton (hpending.stands t (by simp))
    refine .of_bind ((operands_gives rest hxs.2 hsnoc).mono ?_)
    rintro _ h' ⟨us, rfl, hus, hlegible, hpending', hlink'⟩
    refine .of_pure ⟨t :: us, rfl, ?_, fun hread => ?_, by simpa using hpending', hlink'.trans hlink⟩
    · simpa using ⟨ht.operand, hus⟩
    · simpa using ⟨ht.legible hread.1, hlegible hread.2⟩

end

/-- The nodes of an instruction are a tree that nothing holds yet. -/
theorem action_gives {a : Action} (ha : Grammar.Acts a) (g : Flow) :
    Gives (action a) g fun i h => Adds g i h fun t =>
      t.IsAction ∧ ((∀ x ∈ a.operands, x.Readable) → t.LegibleBelow) := by
  cases a with
  | assign x y =>
    refine .of_bind ((operand_gives x (ha.named x (by simp [Action.operands])) g).mono ?_)
    rintro _ h ⟨t, rfl, ht, hpending, hlink⟩
    refine .of_bind ((operand_gives y (ha.named y (by simp [Action.operands])) h).mono ?_)
    rintro _ h' ⟨t', rfl, ht', hpending', hlink'⟩
    refine alloc_gives (e := .assign t t') ?_ (hlink'.trans hlink) fun i => ⟨⟨rfl, ?_, ?_⟩, fun hread => ?_⟩
    · exact hpending.snoc hpending'.grows_of_singleton (hpending'.stands t' (by simp))
    · simpa [Expr.children] using ⟨ht.operand, ht'.operand⟩
    · rintro _ _ ⟨⟩
      exact ht.isAssignable_eq.trans (ha.assign x y rfl)
    · simpa [Term.LegibleBelow, Expr.children] using
        ⟨ht.legible (hread x (by simp [Action.operands])), ht'.legible (hread y (by simp [Action.operands]))⟩
  | call x =>
    refine (operand_gives x (ha.named x (by simp [Action.operands])) g).mono ?_
    rintro _ h ⟨t, rfl, ht, hpending, hlink⟩
    exact ⟨t, rfl, ⟨ht.operand.isAction (ht.isCall_eq.trans (ha.call x rfl)),
      fun hread => (ht.legible (hread x (by simp [Action.operands]))).legibleBelow⟩, hpending, hlink⟩
  | goto a =>
    exact alloc_gives (e := .goto a) (.nil g) rfl fun x =>
      ⟨⟨rfl, by simp [Expr.children], by simp⟩, fun _ => by simp [Term.LegibleBelow, Expr.children]⟩
  | branch x a =>
    refine .of_bind ((operand_gives x (ha.named x (by simp [Action.operands])) g).mono ?_)
    rintro _ h ⟨t, rfl, ht, hpending, hlink⟩
    exact alloc_gives (e := .branch t a) hpending hlink fun i =>
      ⟨⟨rfl, by simpa [Expr.children] using ht.operand, by simp⟩, fun hread => by
        simpa [Term.LegibleBelow, Expr.children] using ht.legible (hread x (by simp [Action.operands]))⟩
  | ret x =>
    cases x with
    | none =>
      exact alloc_gives (e := .ret none) (.nil g) rfl fun x =>
        ⟨⟨rfl, by simp [Expr.children], by simp⟩, fun _ => by simp [Term.LegibleBelow, Expr.children]⟩
    | some x =>
      refine .of_bind ((operand_gives x (ha.named x (by simp [Action.operands])) g).mono ?_)
      rintro _ h ⟨t, rfl, ht, hpending, hlink⟩
      exact alloc_gives (e := .ret (some t)) hpending hlink fun i =>
        ⟨⟨rfl, by simpa [Expr.children] using ht.operand, by simp⟩, fun hread => by
          simpa [Term.LegibleBelow, Expr.children] using ht.legible (hread x (by simp [Action.operands]))⟩

/-- A new statement from an instruction. -/
theorem plain_of_inserts {f g h : Flow} {block : Address} {position : Nat} {s : StatementId} {t : Term}
    (hf : f.Plain) (hfg : f.Pending g [t]) (hlink : g.linkOf = f.linkOf) (ht : t.IsAction)
    (hgh : f.Inserts g h block position s t) : h.Plain := by
  have hgrows := hfg.grows_of_singleton
  have hmade : ∀ {x e}, h.exprAt x = some e → f.exprAt x = some e ∨
      ∃ u, Term.Within u t ∧ u.id = x ∧ e = u.expr.map Term.id := by
    intro x e hx
    rw [hgh.exprAt_eq] at hx
    obtain ⟨p, hshape⟩ := Flow.exists_shapeAt_of_exprAt hx
    rcases hgrows.made x (by simp [hshape]) with hold | hnew
    · exact .inl (by rw [← hx, hgrows.retains.exprAt_eq (Flow.exprAt_ne_none.2 hold)])
    · obtain ⟨u, hu, rfl⟩ := Term.exists_within_of_mem_preorder hnew
      obtain ⟨q, hq⟩ := (hfg.stands t (by simp)).exists_of_within hu
      rw [Flow.exprAt_eq_some hq.shape_id, Option.some.injEq] at hx
      exact .inr ⟨u, hu, rfl, hx.symm⟩
  have hroot : ∀ {u d y}, Term.Within u t → u.expr.map Term.id = .assign d y → u = t := by
    intro u d y hu hassign
    cases hu with
    | refl => rfl
    | inside hc hu =>
      obtain ⟨a, b, hassign⟩ := Expr.eq_assign_of_head_eq (e := u.expr) (by
        rw [← Expr.head_map (f := Term.id), hassign]
        rfl)
      exact absurd hassign (Term.IsOperand.ne_assign (fun v hv => ht.children _ hc v (hv.trans hu)) a b)
  have hkept : ∀ {x e}, f.exprAt x = some e → h.exprAt x = some e := by
    intro x e hx
    rw [hgh.exprAt_eq, hgrows.retains.exprAt_eq (by simp [hx]), hx]
  refine ⟨hgh.forest, fun x e hx => ?_, fun x => ?_, fun x e hx => ?_, fun x e hx => ?_,
    fun r d y hr => ?_, fun r d y hr => ?_, fun s' u hu => ?_⟩
  · rw [hgh.exprAt_eq] at hx ⊢
    exact hf.closed.pending hfg x e hx
  · rw [hgh.linkOf_eq, hlink, hf.unlinked]
  · rcases hmade hx with hold | ⟨u, hu, -, rfl⟩
    · exact hf.plain x e hold
    · rw [Expr.isPlain_map]
      exact ht.plain hu
  · rcases hmade hx with hold | ⟨u, hu, -, rfl⟩
    · exact hf.location x e hold
    · rw [Locations.admits_map]
      exact ht.admits hu
  · rcases hmade hr with hold | ⟨u, hu, rfl, hassign⟩
    · obtain ⟨e, he, hassignable⟩ := hf.target r d y hold
      exact ⟨e, hkept he, hassignable⟩
    · obtain rfl := hroot hu hassign.symm
      obtain ⟨a, b, heq⟩ := Expr.eq_assign_of_head_eq (e := u.expr) (by
        rw [← Expr.head_map (f := Term.id), ← hassign]
        rfl)
      rw [heq] at hassign
      cases hassign
      have ha : a ∈ u.expr.children := by simp [heq, Expr.children]
      obtain ⟨i, e⟩ := u
      obtain ⟨q, hq⟩ := (hfg.stands _ (by simp)).exists_of_within (.of_mem_children (i := i) ha)
      refine ⟨_, hgh.exprAt_eq ▸ Flow.exprAt_eq_some hq.shape_id, ?_⟩
      rw [Expr.isAssignable_map]
      exact ht.assign a b heq
  · rcases hmade hr with hold | ⟨u, hu, rfl, hassign⟩
    · obtain ⟨s', u, hu, rfl⟩ := hf.rooted r d y hold
      exact ⟨s', u, hgh.holds_old s' u hu, rfl⟩
    · obtain rfl := hroot hu hassign.symm
      exact ⟨s, u, hgh.holds, rfl⟩
  · by_cases hs : s' = s
    · subst hs
      exact hu.unique hgh.holds ▸ ht
    · exact hf.action s' u (hgh.holds_of_ne hf.forest hu hs)

theorem pushStatement_gives {f g : Flow} {block address : Address} {t : Term} (hf : f.Forest)
    (hfg : f.Pending g [t]) (hb : f.block? block ≠ none) :
    Gives (Edit.pushStatement block address t.id) g fun s h =>
      ∃ position, f.Inserts g h block position s t := by
  obtain ⟨b, hb⟩ := Option.ne_none_iff_exists'.1 hb
  have hgb : g.block? block = some b := by rw [← hb, Flow.block?, hfg.grows.blocks_eq, Flow.block?]
  unfold Edit.pushStatement
  refine .of_bind (.of_get ?_)
  rw [hgb]
  exact (Flow.insertStatement_gives hf hfg hb (Nat.le_refl _)).mono fun s h hs => ⟨_, hs⟩

theorem instruction_gives {f : Flow} {block address : Address} (hl : l.WellFormed) (hf : f.Plain)
    (hb : f.block? block ≠ none) (hi : (l.instruction? address).isSome = true) :
    Succeeds (instruction l block address) f fun _ g => g.Plain ∧ f.SameGraph g ∧ (f.Tidy → g.Tidy) ∧
      (l.Readable → f.LegibleBelow → g.LegibleBelow) := by
  obtain ⟨i, hi⟩ := Option.isSome_iff_exists.1 hi
  unfold instruction
  rw [hi]
  refine .of_bind (.of_lift ((action_gives (hl.acts address i hi) f).mono ?_))
  rintro _ g ⟨t, rfl, ⟨ht, hlegible⟩, hpending, hlink⟩
  refine .of_bind (.of_lift ((pushStatement_gives hf.forest hpending hb).mono ?_))
  rintro s h ⟨position, hs⟩
  refine .of_pure ⟨plain_of_inserts hf hpending hlink ht hs, hs.graph, fun htidy => htidy.inserts hpending hs,
    fun hread hbelow s' u hu => ?_⟩
  by_cases hne : s' = s
  · subst hne
    exact hu.unique hs.holds ▸ hlegible (hread address i hi)
  · exact hbelow s' u (hs.holds_of_ne hf.forest hu hne)

/-- A flow before its statements are made holds none. -/
theorem plain_of_recovered {f : Flow} (hf : ControlFlow.Recovered l f) : f.Plain := by
  have hexpr : ∀ x, f.exprAt x = none := by simp [Flow.exprAt, Flow.shapeAt, hf.nodes_eq]
  have hstatement : ∀ s, f.statementAt s = none := by simp [Flow.statementAt, hf.statements_eq]
  refine ⟨⟨hf.address_eq, fun a b s hb => ?_, fun s st hst => ?_, fun a b hb => ?_,
    fun s st hst => ?_⟩, fun x e hx => ?_, fun x => ?_, fun x e hx => ?_, fun x e hx => ?_,
    fun r d y hr => ?_, fun r d y hr => ?_, fun s t ht => ?_⟩
  · simp [hf.block_statements a b hb, hstatement]
  · simp [hstatement] at hst
  · simp [hf.block_statements a b hb]
  · simp [hstatement] at hst
  · simp [hexpr] at hx
  · simp [Flow.linkOf, hf.nodes_eq]
  · simp [hexpr] at hx
  · simp [hexpr] at hx
  · simp [hexpr] at hr
  · simp [hexpr] at hr
  · obtain ⟨st, hst, -⟩ := ht
    simp [hstatement] at hst

/-- Every instruction becomes a statement. -/
theorem lower_gives {f : Flow} (hl : l.WellFormed) (hf : ControlFlow.Recovered l f) :
    Succeeds (lower l) f fun _ g => g.Plain ∧ f.SameGraph g ∧ g.Tidy ∧ (l.Readable → g.LegibleBelow) := by
  unfold lower
  refine .of_bind (.of_get ?_)
  refine (Succeeds.of_forM (I := fun bs g => (∀ b ∈ bs, ∃ a, f.block? a = some b) ∧ g.Plain ∧
    f.SameGraph g ∧ g.Tidy ∧ (l.Readable → g.LegibleBelow)) ?_ _ ?_).mono fun _ g hg => hg.2
  · rintro b rest g ⟨hbs, hg, hgraph, htidy, hlegible⟩
    obtain ⟨a, hb⟩ := hbs b (by simp)
    refine (Succeeds.of_forM (I := fun xs g => (∀ x ∈ xs, (l.instruction? x).isSome = true) ∧
      g.Plain ∧ f.SameGraph g ∧ g.Tidy ∧ (l.Readable → g.LegibleBelow)) ?_ _ ?_).mono
      fun _ h hh => ⟨fun c hc => hbs c (by simp [hc]), hh.2⟩
    · rintro x rest g ⟨hxs, hg, hgraph, htidy, hlegible⟩
      have hblock : g.block? b.address ≠ none := by
        rw [hf.address_eq a b hb]
        exact hgraph.ne_none (by simp [hb])
      refine (instruction_gives hl hg hblock (hxs x (by simp))).mono ?_
      rintro _ h ⟨hh, hgraph', htidy', hlegible'⟩
      exact ⟨fun y hy => hxs y (by simp [hy]), hh, hgraph.trans hgraph', htidy' htidy,
        fun hread => hlegible' hread (hlegible hread)⟩
    · exact ⟨hf.instruction a b hb, hg, hgraph, htidy, hlegible⟩
  · refine ⟨fun b hb => SortedMap.mem_values.1 hb, plain_of_recovered hf, .refl f, fun x hx => ?_, fun _ s t ht => ?_⟩
    · simp [Flow.shapeAt, hf.nodes_eq] at hx
    · obtain ⟨st, hst, -⟩ := ht
      simp [Flow.statementAt, hf.statements_eq] at hst

end Lowering

/-- The flow of the function at an address of a listing, right after its instructions have become
    statements. -/
def Flow.ofText? (text : String) (entry : Address) : Option Flow :=
  match Listing.parse text with
  | .error _ => none
  | .ok l =>
    match (do ControlFlow.recover l; Lowering.lower l : Pass Unit).run.run (.empty entry) with
    | .ok (.ok (), f) => some f
    | _ => none

/-- A flow as it is when instructions have just become statements, for some text that is a listing
    and some entry. -/
def Flow.IsLowered (f : Flow) : Prop :=
  ∃ text entry, Flow.ofText? text entry = some f

theorem Flow.IsLowered.plain_and_connected {f : Flow} (hf : f.IsLowered) :
    f.Plain ∧ f.Connected ∧ f.Tidy ∧ f.LegibleBelow := by
  obtain ⟨text, entry, hf⟩ := hf
  obtain ⟨l, hparse, hrun⟩ : ∃ l, Listing.parse text = .ok l ∧ (do
      ControlFlow.recover l
      Lowering.lower l : Pass Unit).run.run (.empty entry) = .ok (.ok (), f) := by
    unfold ofText? at hf
    split at hf
    next => cases hf
    next l hparse =>
      split at hf
      next hrun => exact ⟨l, hparse, Option.some.inj hf ▸ hrun⟩
      next => cases hf
  have hl := Listing.wellFormed_of_parse hparse
  obtain ⟨r, g, hrecover, hcases⟩ := ControlFlow.recover_gives hl entry
  obtain ⟨r', g', hrecover', hlower⟩ := exists_of_bind_eq_ok hrun
  obtain ⟨rfl, rfl⟩ := Prod.mk.inj (Except.ok.inj (hrecover.symm.trans hrecover'))
  obtain ⟨rfl, -, hrecovered⟩ | ⟨a, fault, rfl⟩ := hcases
  · obtain ⟨_, h, hlower', _, rfl, hplain, hgraph, htidy, hlegible⟩ := Lowering.lower_gives hl hrecovered
    obtain ⟨-, rfl⟩ := Prod.mk.inj (Except.ok.inj (hlower'.symm.trans hlower))
    exact ⟨hplain, hgraph.connected hrecovered.connected, htidy, hlegible (Listing.readable_of_parse hparse)⟩
  · cases hlower

theorem Flow.IsLowered.plain {f : Flow} (hf : f.IsLowered) : f.Plain :=
  hf.plain_and_connected.1

theorem Flow.IsLowered.connected {f : Flow} (hf : f.IsLowered) : f.Connected :=
  hf.plain_and_connected.2.1

theorem Flow.IsLowered.tidy {f : Flow} (hf : f.IsLowered) : f.Tidy :=
  hf.plain_and_connected.2.2.1

theorem Flow.IsLowered.legibleBelow {f : Flow} (hf : f.IsLowered) : f.LegibleBelow :=
  hf.plain_and_connected.2.2.2

end FrameRecovery
