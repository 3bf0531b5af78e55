import FrameRecovery.Proofs.Flow.Orderly
import FrameRecovery.Propagation
import FrameRecovery.Renaming

namespace FrameRecovery

namespace Flow

variable {f : Flow} {x : NodeId}

/-- The tree below each node, the node above it and the statement around it can be looked up. -/
def Readable (f : Flow) : Prop :=
  ∀ x, x.index < f.nodes.size →
    (∃ t, f.term x = .ok t) ∧ (∃ e, f.parentExpr? x = .ok e) ∧ ∃ s, f.statementOf? x = .ok s

theorem exprAt_ne_none_iff_lt : f.exprAt x ≠ none ↔ x.index < f.nodes.size := by
  rw [exprAt_ne_none, ne_eq, shapeAt_eq_none_iff, Nat.not_le]

theorem Grounded.readable (hf : f.Grounded) : f.Readable := by
  intro x hx
  have hx := exprAt_ne_none_iff_lt.2 hx
  obtain ⟨t, hterm, ht, rfl⟩ := hf.term_eq hx
  obtain ⟨s, hs, -⟩ := hf.statementOf?_eq ht
  exact ⟨⟨t, hterm⟩, hf.parentExpr?_eq hx, s, hs⟩

/-- A statement that a node is in has the node in its tree. -/
theorem Orderly.exists_within {s : StatementId} (hf : f.Orderly) (hx : f.exprAt x ≠ none)
    (hs : f.statementOf? x = .ok (some s)) : ∃ T t, f.Holds s T ∧ Term.Within t T ∧ t.id = x := by
  obtain ⟨t, ht, rfl⟩ := hf.grounded.spelled x hx
  obtain ⟨r, hr, hstatement⟩ := hf.grounded.statementOf?_eq ht
  obtain rfl := Except.ok.inj (hr.symm.trans hs)
  obtain ⟨st, T, hst, hT, hid, hwithin⟩ := hstatement s rfl
  obtain ⟨T', hT'⟩ := hf.forest.holds s st hst
  obtain ⟨st', hst', hroot, hstands⟩ := id hT'
  obtain rfl := Option.some.inj (hst.symm.trans hst')
  obtain rfl := hstands.spells.unique hT (hroot.symm.trans hid.symm)
  exact ⟨T', t, hT', hwithin, rfl⟩

end Flow

namespace PropagationPolicy

open Flow

/-- A policy has an answer about the nodes of every flow that it can look up things in. -/
def Answers (policy : PropagationPolicy) : Prop :=
  ∀ (f : Flow) (definition value use : NodeId), f.Readable → definition.index < f.nodes.size →
    value.index < f.nodes.size → use.index < f.nodes.size → ∃ b, policy f definition value use = .ok b

theorem answers_replaceable : replaceable.Answers := by
  intro f d v u hf _ hv _
  obtain ⟨⟨t, ht⟩, -⟩ := hf v hv
  unfold replaceable
  rw [ht]
  exact ⟨_, rfl⟩

theorem exists_isThetaInput {f : Flow} {x : NodeId} (hf : f.Readable) (hx : x.index < f.nodes.size) :
    ∃ b, isThetaInput f x = .ok b := by
  obtain ⟨-, ⟨e, he⟩, -⟩ := hf x hx
  unfold isThetaInput
  rw [he]
  cases e <;> exact ⟨_, rfl⟩

theorem answers_stackPointer (m : Machine) : (stackPointer m).Answers := by
  intro f d v u hf hd hv hu
  obtain ⟨⟨td, htd⟩, -⟩ := hf d hd
  obtain ⟨⟨tv, htv⟩, -⟩ := hf v hv
  obtain ⟨b, hb⟩ := exists_isThetaInput hf hu
  unfold stackPointer
  rw [htd, bind_ok, hb, htv]
  split
  · exact ⟨_, rfl⟩
  · cases b <;> exact ⟨_, rfl⟩

end PropagationPolicy

namespace Propagation

open Flow

variable {f : Flow} {policy : PropagationPolicy} {s around : StatementId} {d u value : NodeId}

theorem exists_liveStatementOf? (hf : f.Orderly) (hu : f.exprAt u ≠ none) :
    ∃ r, liveStatementOf? f u = .ok r ∧ ∀ s, r = some s → ∃ T t, f.Holds s T ∧ Term.Within t T ∧ t.id = u := by
  obtain ⟨-, -, r, hr⟩ := hf.grounded.readable u (exprAt_ne_none_iff_lt.1 hu)
  unfold liveStatementOf?
  rw [hr, bind_ok]
  cases r with
  | none => exact ⟨none, rfl, nofun⟩
  | some s =>
    obtain ⟨T, t, hT, hwithin, hid⟩ := hf.exists_within hu hr
    obtain ⟨st, hst, -⟩ := id hT
    dsimp only
    rw [statement_eq hst]
    refine ⟨_, rfl, fun s' hs' => ?_⟩
    split at hs'
    · cases hs'
    · obtain rfl := Option.some.inj hs'
      exact ⟨T, t, hT, hwithin, hid⟩

theorem exists_valueOf (hf : f.Orderly) (hs : f.statementAt s ≠ none) (hvalue : f.exprAt value ≠ none) :
    ∃ v, valueOf f s value = .ok v ∧ f.exprAt v ≠ none := by
  obtain ⟨st, t, hst, ht, hroot⟩ := hf.exists_root hs
  unfold valueOf
  rw [ht.rootExpr_eq, bind_ok]
  obtain ⟨r, e⟩ := t
  cases e with
  | assign a b =>
    have hb : Term.Within b (.node r (.assign a b)) := .of_mem_children (by simp [Expr.children])
    exact ⟨b.id, rfl, by simp [(ht.stands.spells.of_within hb).exprAt_id]⟩
  | _ => exact ⟨value, rfl, hvalue⟩

/-- A read in a statement can be replaced by a copy of any value. -/
theorem substitute_orderly {T t : Term} (hf : f.Orderly) (hvalue : f.exprAt value ≠ none)
    (hT : f.Holds around T) (ht : Term.Within t T) :
    Gives (substitute value t.id around) f fun _ g => g.Orderly ∧ f.Persists g := by
  obtain ⟨q, hsits, hlift⟩ := Replaces.lift_within hT.sits ht
  have hold : f.shapeAt t.id ≠ none := by simp [hsits.stands.shape_id]
  unfold substitute
  refine .of_bind ((Edit.copy_orderly hf hvalue).mono ?_)
  rintro _ g₁ ⟨t', rfl, hg₁, hgrows, hstands⟩
  refine .of_bind ((Edit.unlink_orderly hg₁ (exprAt_ne_none.2 (hgrows.ne_none hold))).mono ?_)
  rintro - g₂ ⟨hg₂, hrelinks⟩
  have hgrows₂ : f.Grows g₂ t'.preorder :=
    hgrows.congr hrelinks.shape_eq hrelinks.entry_eq hrelinks.statements_eq hrelinks.blocks_eq
  have hstands₂ : g₂.Stands .detached t' := hstands.congr fun _ _ => by rw [hrelinks.shape_eq]
  refine .of_bind ((Edit.replaceInParent_rebuilds hgrows₂ hsits hstands₂
    (hstands.nodup_preorder Place.top_detached) (fun hmem => hold (hgrows.fresh _ hmem)) fun _ hx => .inr hx).mono ?_)
  rintro - g₃ ⟨⟨hreplaces, -⟩, hgrounded⟩
  obtain ⟨T', hT', -⟩ := hlift g₃ t' hreplaces
  have hpersists := Persists.of_replaces hT'
  obtain ⟨st, hst, -⟩ := id hT
  refine .of_bind ((Edit.simplifyStatement_orderly (hf.replaces hT hT' (hgrounded hg₂.grounded))
    (hpersists.statement around (by simp [hst]))).mono ?_)
  exact fun _ h ⟨hh, hgh⟩ => .of_pure ⟨hh, hpersists.trans hgh⟩

theorem checkUse_settles (hf : f.Orderly) (hd : f.exprAt d ≠ none) (hu : f.exprAt u ≠ none) :
    Settles (checkUse d u) f (fun _ g => g = f) Orderly := by
  obtain ⟨⟨e, p⟩, hshape⟩ := Option.ne_none_iff_exists'.1 (exprAt_ne_none.1 hu)
  have htext : ∀ {x}, f.exprAt x ≠ none → ∃ text, f.text x = .ok text := by
    intro x hx
    obtain ⟨t, ht, -⟩ := hf.grounded.term_eq hx
    exact ⟨t.text, by unfold Flow.text; rw [ht]; rfl⟩
  obtain ⟨_, hdtext⟩ := htext hd
  obtain ⟨_, hutext⟩ := htext hu
  unfold checkUse
  refine .of_bind (.of_view (Flow.link_eq hshape) ?_)
  split
  · exact .of_bind (.of_view hdtext (.of_bind (.of_view hutext (.of_throw hf))))
  · exact .of_pure rfl

variable (hpolicy : policy.Answers)
include hpolicy

theorem propagateUse_settles {stats : PropagationStats} (hf : f.Orderly) (hs : f.statementAt s ≠ none)
    (hd : f.exprAt d ≠ none) (hvalue : f.exprAt value ≠ none) (hu : f.exprAt u ≠ none) :
    Settles (propagateUse policy s d value stats u) f (fun _ g => g.Orderly ∧ f.Persists g) Orderly := by
  unfold propagateUse
  refine .of_bind ((checkUse_settles hf hd hu).mono ?_)
  rintro - _ rfl
  obtain ⟨r, hr, hheld⟩ := exists_liveStatementOf? hf hu
  refine .of_bind (.of_view hr ?_)
  cases r with
  | none => exact .of_pure ⟨hf, .refl _⟩
  | some around =>
    obtain ⟨T, t, hT, hwithin, rfl⟩ := hheld around rfl
    obtain ⟨v, hv, hvnode⟩ := exists_valueOf hf hs hvalue
    obtain ⟨b, hb⟩ := hpolicy _ d v t.id hf.grounded.readable (exprAt_ne_none_iff_lt.1 hd)
      (exprAt_ne_none_iff_lt.1 hvnode) (exprAt_ne_none_iff_lt.1 hu)
    refine .of_bind (.of_view hv (.of_bind (.of_view hb ?_)))
    cases b with
    | false => exact .of_pure ⟨hf, .refl _⟩
    | true => exact .of_bind (.of_lift ((substitute_orderly hf hvnode hT hwithin).mono fun _ _ h => .of_pure h))

theorem propagateStatement_settles {stats : PropagationStats} (hf : f.Orderly) (hs : f.statementAt s ≠ none) :
    Settles (propagateStatement policy stats s) f (fun _ g => g.Orderly ∧ f.Persists g) Orderly := by
  obtain ⟨st, t, hst, ht, hroot⟩ := hf.exists_root hs
  have hspells := ht.stands.spells
  unfold propagateStatement
  refine .of_bind (.of_view ht.rootExpr_eq ?_)
  obtain ⟨r, e⟩ := t
  cases e with
  | assign a b =>
    have ha := (hspells.of_within (.of_mem_children (c := a) (by simp [Expr.children]))).exprAt_id
    have hb := (hspells.of_within (.of_mem_children (c := b) (by simp [Expr.children]))).exprAt_id
    obtain ⟨p, hshape⟩ := exists_shapeAt_of_exprAt ha
    refine .of_bind (.of_view (expr_eq hshape) ?_)
    split
    · exact .of_pure ⟨hf, .refl f⟩
    · refine .of_bind (.of_view (uses_eq hshape) ?_)
      have huses : ∀ u ∈ (f.linkOf a.id).uses, f.exprAt u ≠ none := fun u hu =>
        hf.grounded.link a.id u (by
          rw [Link.eq_definition_of_mem_uses hu]
          exact hu)
      refine (Settles.of_foldlM (I := fun rest _ g => g.Orderly ∧ f.Persists g ∧ rest ⊆ (f.linkOf a.id).uses) ?_ _
        ⟨hf, .refl f, fun _ h => h⟩).mono fun _ g ⟨hg, hfg, _⟩ => ⟨hg, hfg⟩
      rintro u rest stats g ⟨hg, hfg, hrest⟩
      refine (propagateUse_settles hpolicy hg (hfg.statement s hs) (hfg.node a.id (by simp [ha]))
        (hfg.node b.id (by simp [hb])) (hfg.node u (huses u (hrest (by simp))))).mono ?_
      exact fun _ h ⟨hh, hgh⟩ => ⟨hh, hfg.trans hgh, fun v hv => hrest (List.mem_cons_of_mem _ hv)⟩
  | _ => exact .of_pure ⟨hf, .refl f⟩

/-- Propagation keeps a flow orderly, whatever the policy, also where it stops with an error. -/
theorem propagate_settles (hf : f.Orderly) : Settles (propagate policy) f (fun _ g => g.Orderly) Orderly := by
  unfold propagate
  refine .of_bind (.of_lift (.of_get ?_))
  refine (Settles.of_foldlM (I := fun rest _ g => g.Orderly ∧ f.Persists g ∧ rest ⊆ f.liveStatements) ?_ _
    ⟨hf, .refl f, fun _ h => h⟩).mono fun _ g ⟨hg, _⟩ => hg
  rintro s rest stats g ⟨hg, hfg, hrest⟩
  have hs := (hf.forest.mem_liveStatements.1 (hrest (List.mem_cons_self ..))).statementAt_ne_none
  refine (propagateStatement_settles hpolicy hg (hfg.statement s hs)).mono fun _ h ⟨hh, hgh⟩ => ?_
  exact ⟨hh, hfg.trans hgh, fun s' hs' => hrest (List.mem_cons_of_mem _ hs')⟩

end Propagation

namespace Renaming

open Flow

variable {σ α β : Type} {f g : Flow} {E : Flow → Prop}

/-- A change of a flow and of a state beside it comes to an end, whatever that state is: its result and
    the flow after it are as stated, or else the flow that it left behind when it failed is. -/
def Settles (x : Renaming σ α) (f : Flow) (Q : α → Flow → Prop) (E : Flow → Prop) : Prop :=
  ∀ state : σ, Gives (x.run.run state) f fun r g => match r.1 with
    | .ok a => Q a g
    | .error _ => E g

namespace Settles

theorem mono {x : Renaming σ α} {Q R : α → Flow → Prop} (h : Settles x f Q E) (hmono : ∀ a g, Q a g → R a g) :
    Settles x f R E :=
  fun state => Gives.mono (h state) fun r g hg => match r with
    | (.ok a, _) => hmono a g hg
    | (.error _, _) => hg

theorem of_pure {a : α} {Q : α → Flow → Prop} (h : Q a f) : Settles (pure a : Renaming σ α) f Q E :=
  fun _ => Gives.of_pure h

theorem of_bind {x : Renaming σ α} {k : α → Renaming σ β} {Q : β → Flow → Prop}
    (h : Settles x f (fun a g => Settles (k a) g Q E) E) : Settles (x >>= k) f Q E := by
  intro state
  rw [ExceptT.run_bind, StateT.run_bind]
  refine Gives.of_bind (Gives.mono (h state) ?_)
  rintro ⟨e | a, state'⟩ g hg
  · exact Gives.of_pure hg
  · exact hg state'

theorem of_pass {x : Pass α} {Q : α → Flow → Prop} (h : FrameRecovery.Settles x f Q E) :
    Settles (ExceptT.mk (liftM x.run) : Renaming σ α) f Q E := by
  intro state
  obtain ⟨r, g, hx, hg⟩ := h
  refine ⟨(r, state), g, ?_, hg⟩
  change (x.run f >>= fun r => Except.ok ((r.1, state), r.2)) = _
  rw [hx]
  rfl

theorem of_edit {x : Edit α} {Q : α → Flow → Prop} (h : Gives x f Q) : Settles (liftM x : Renaming σ α) f Q E := by
  intro state
  obtain ⟨a, g, hx, hQ⟩ := h
  refine ⟨(.ok a, state), g, ?_, hQ⟩
  change ((x f >>= fun r => Except.ok ((r.1, state), r.2)) >>=
    fun r => Except.ok ((Except.ok r.1.1, r.1.2), r.2)) = _
  rw [hx]
  rfl

theorem of_view {read : Flow → Except Fault α} {a : α} {Q : α → Flow → Prop} (hread : read f = .ok a)
    (h : Q a f) : Settles (Edit.view read : Renaming σ α) f Q E :=
  of_edit (Gives.of_view hread h)

theorem of_getThe {Q : σ → Flow → Prop} (h : ∀ state, Q state f) : Settles (getThe σ : Renaming σ σ) f Q E :=
  fun state => ⟨(.ok state, state), f, rfl, h state⟩

theorem of_set {state : σ} {Q : Unit → Flow → Prop} (h : Q () f) : Settles (set state : Renaming σ Unit) f Q E :=
  fun _ => ⟨(.ok (), state), f, rfl, h⟩

/-- A loop that collects results keeps an invariant on the elements that are left. -/
theorem of_mapM {k : α → Renaming σ β} {I : List α → Flow → Prop}
    (step : ∀ a rest f, I (a :: rest) f → Settles (k a) f (fun _ g => I rest g) E) (xs : List α) (h : I xs f) :
    Settles (xs.mapM k) f (fun _ g => I [] g) E := by
  induction xs generalizing f with
  | nil => exact of_pure h
  | cons a rest ih =>
    rw [List.mapM_cons]
    exact of_bind ((step a rest f h).mono fun _ g hg => of_bind ((ih hg).mono fun _ _ h => of_pure h))

end Settles

/-- An orderly flow `g` is a flow `f` with the new nodes `xs`, which make an expression that a node can
    take over. -/
structure Prepares (f g : Flow) (e : Expr Term) (xs : List NodeId) : Prop where
  orderly : g.Orderly
  grows : f.Grows g xs
  stands : ∀ c ∈ e.children, g.Stands .detached c
  new : ∀ c ∈ e.children, c.preorder ⊆ xs
  apart : (e.children.flatMap Term.preorder).Nodup
  origin : ∀ o, e.origin? = some o → g.exprAt o ≠ none

theorem Prepares.relinks {h : Flow} {e : Expr Term} {xs : List NodeId} (hg : Prepares f g e xs)
    (hh : h.Orderly) (hgh : g.Relinks h) : Prepares f h e xs :=
  ⟨hh, hg.grows.congr hgh.shape_eq hgh.entry_eq hgh.statements_eq hgh.blocks_eq,
    fun c hc => (hg.stands c hc).congr fun _ _ => by rw [hgh.shape_eq], hg.new, hg.apart,
    fun o ho => hgh.exprAt_eq ▸ hg.origin o ho⟩

/-- A policy has an answer about every node of an orderly flow, and prepares what is to be put there. -/
def Suits (policy : RenamePolicy σ) : Prop :=
  ∀ {f : Flow} {x : NodeId}, f.Orderly → f.exprAt x ≠ none → (∃ b, policy.selects f x = .ok b) ∧
    Settles (policy.replacement x) f (fun e g => ∃ e₁ xs, e = Expr.map Term.id e₁ ∧ Prepares f g e₁ xs) Orderly

/-- Some trees of a statement are still to be visited, which lie apart from each other. -/
structure Todo (f : Flow) (s : StatementId) (todo : List Term) : Prop where
  orderly : f.Orderly
  holds : ∃ T, f.Holds s T ∧ ∀ t ∈ todo, Term.Within t T
  apart : (todo.flatMap Term.preorder).Nodup

variable {s : StatementId} {t : Term} {rest : List Term} {policy : RenamePolicy σ}

/-- The tree that comes first can be replaced. -/
theorem put_orderly {e₁ : Expr Term} {xs : List NodeId} (hf : Todo f s (t :: rest)) (hg : Prepares f g e₁ xs) :
    Gives (put t.id (e₁.map Term.id)) g fun _ h => Todo h s rest ∧ f.Persists h := by
  obtain ⟨T, hT, htodo⟩ := hf.holds
  have hwithin := htodo t (by simp)
  obtain ⟨q, hsits, hlift⟩ := Replaces.lift_within hT.sits hwithin
  obtain ⟨i, e⟩ := t
  have hshape := (hg.grows.stands hsits.stands).shape_id
  have hchildren : ∀ c ∈ (e.map Term.id).children, f.exprAt c ≠ none := by
    intro c hc
    obtain ⟨u, hu, rfl, -⟩ := hsits.stands.spells.child hc
    exact hu.exprAt_ne_none u.id_mem_preorder
  unfold put
  refine .of_bind (.of_view (children_eq hshape) (.of_bind ?_))
  refine (Gives.of_forM (I := fun rest h => Prepares f h e₁ xs ∧ rest ⊆ (e.map Term.id).children)
    (fun c rest h ⟨hh, hrest⟩ => ?_) _ ⟨hg, fun _ h => h⟩).mono ?_
  · refine (Edit.unlinkSubtree_orderly hh.orderly ?_).mono fun _ h' ⟨hh', hrelinks⟩ =>
      ⟨hh.relinks hh' hrelinks, fun c' hc' => hrest (List.mem_cons_of_mem _ hc')⟩
    exact (Persists.of_grows hh.grows).node c (hchildren c (hrest (by simp)))
  rintro - g₁ ⟨hg₁, -⟩
  -- the node may lose its link before it takes over the expression
  have hreplace : ∀ {h}, Prepares f h e₁ xs → Gives (Edit.replace i (e₁.map Term.id)) h fun _ h' =>
      Todo h' s rest ∧ f.Persists h' := by
    intro h hh
    refine (Edit.replace_rebuilds e₁ hh.grows hsits (fun c hc => ⟨_, hh.stands c hc⟩) (fun c hc hmem => ?_)
      (fun c hc x hx => .inr (hh.new c hc hx)) hh.apart hh.origin).mono ?_
    · have hfresh := hh.grows.fresh i (hh.new c hc hmem)
      have hold := hsits.stands.shape_id
      simp [hfresh] at hold
    rintro - h' ⟨⟨hreplaces, -⟩, hgrounded⟩
    obtain ⟨T', hT', -, -, -, hbeside, -⟩ := hlift h' _ hreplaces
    have hapart := hf.apart
    rw [List.flatMap_cons, List.nodup_append] at hapart
    refine ⟨⟨hf.orderly.replaces hT hT' (hgrounded hh.orderly.grounded), ⟨T', hT.replaces hT', fun u hu => ?_⟩,
      hapart.2.1⟩, .of_replaces hT'⟩
    refine hbeside u (htodo u (by simp [hu])) fun x hx hxt => ?_
    exact hapart.2.2 x hxt x (List.mem_flatMap.2 ⟨u, hu, hx⟩) rfl
  split
  · have hi : g₁.exprAt i ≠ none :=
      (Persists.of_grows hg₁.grows).node i (hsits.stands.spells.exprAt_ne_none (Term.id_mem_preorder _))
    refine .of_bind ((Edit.unlink_orderly hg₁.orderly hi).mono ?_)
    exact fun _ h ⟨hh, hrelinks⟩ => hreplace (hg₁.relinks hh hrelinks)
  · exact hreplace hg₁

theorem Todo.below {i : NodeId} {e : Expr Term} (hf : Todo f s (.node i e :: rest)) :
    Todo f s (e.children ++ rest) := by
  obtain ⟨T, hT, htodo⟩ := hf.holds
  have hapart := hf.apart
  rw [List.flatMap_cons, Term.preorder_node, List.cons_append, List.nodup_cons] at hapart
  refine ⟨hf.orderly, ⟨T, hT, fun u hu => ?_⟩, by simpa using hapart.2⟩
  obtain hu | hu := List.mem_append.1 hu
  · exact (Term.Within.of_mem_children hu).trans (htodo (.node i e) (by simp))
  · exact htodo u (by simp [hu])

/-- Several trees can be visited if one can. -/
theorem visits_settle {depth : Nat}
    (hvisit : ∀ {t : Term} {rest : List Term} {f : Flow}, Todo f s (t :: rest) → t.height ≤ depth →
      Settles (visit policy depth t.id) f (fun _ g => Todo g s rest ∧ f.Persists g) Orderly)
    (ts : List Term) (hdepth : ∀ t ∈ ts, t.height ≤ depth) (hf : Todo f s (ts ++ rest)) :
    Settles ((ts.map Term.id).mapM (visit policy depth)) f (fun _ g => Todo g s rest ∧ f.Persists g) Orderly := by
  induction ts generalizing f with
  | nil => exact .of_pure ⟨hf, .refl f⟩
  | cons t ts ih =>
    rw [List.map_cons, List.mapM_cons]
    refine .of_bind ((hvisit hf (hdepth t (by simp))).mono fun _ g ⟨hg, hfg⟩ => ?_)
    refine .of_bind ((ih (fun u hu => hdepth u (by simp [hu])) hg).mono fun _ h ⟨hh, hgh⟩ => .of_pure ?_)
    exact ⟨hh, hfg.trans hgh⟩

variable (hpolicy : Suits policy)
include hpolicy

theorem visit_settles (depth : Nat) (hf : Todo f s (t :: rest)) (hdepth : t.height ≤ depth) :
    Settles (visit policy depth t.id) f (fun _ g => Todo g s rest ∧ f.Persists g) Orderly := by
  induction depth generalizing t rest f with
  | zero =>
    obtain ⟨i, e⟩ := t
    rw [Term.height_node] at hdepth
    omega
  | succ depth ih =>
    obtain ⟨T, hT, htodo⟩ := hf.holds
    have hspells := hT.stands.spells.of_within (htodo t (by simp))
    obtain ⟨⟨b, hb⟩, hreplacement⟩ := hpolicy hf.orderly (hspells.exprAt_ne_none t.id_mem_preorder)
    unfold visit
    refine .of_bind (.of_view hb ?_)
    cases b with
    | true =>
      refine .of_bind (hreplacement.mono ?_)
      rintro _ g ⟨e₁, xs, rfl, hg⟩
      exact .of_bind (.of_edit ((put_orderly hf hg).mono fun _ h hh => .of_pure hh))
    | false =>
      obtain ⟨i, e⟩ := t
      obtain ⟨p, hshape⟩ := exists_shapeAt_of_exprAt hspells.exprAt_id
      refine .of_bind (.of_view (children_eq hshape) ?_)
      rw [Expr.children_map]
      have hchildren : ∀ c ∈ e.children, c.height ≤ depth := fun c hc => by
        have hlt := Term.height_lt_of_mem_children (i := i) hc
        omega
      exact .of_bind ((visits_settle ih e.children hchildren hf.below).mono fun _ _ h => .of_pure h)

theorem visitStatement_settles (hf : f.Orderly) (hs : f.statementAt s ≠ none) :
    Settles (visitStatement policy s) f (fun _ g => g.Orderly ∧ f.Persists g) Orderly := by
  obtain ⟨st, ⟨i, e⟩, hst, ht, hroot⟩ := hf.exists_root hs
  have htodo : Todo f s [.node i e] := by
    refine ⟨hf, ⟨_, ht, fun t ht => ?_⟩, by simpa using ht.nodup⟩
    rw [List.mem_singleton.1 ht]
    exact .refl _
  have hdepth : ∀ c ∈ e.children, c.height ≤ f.depthBound := fun c hc => by
    have hlt := Term.height_lt_of_mem_children (i := i) hc
    have hle := ht.stands.height_le
    unfold Flow.depthBound
    omega
  unfold visitStatement
  refine .of_bind (.of_view (statement_eq hst) (.of_bind (.of_view rfl ?_)))
  rw [hroot]
  refine .of_bind (.of_view (children_eq ht.stands.shape_id) ?_)
  rw [Expr.children_map]
  refine .of_bind ((visits_settle (visit_settles hpolicy _) e.children hdepth htodo.below).mono ?_)
  exact fun _ g ⟨hg, hfg⟩ => .of_pure ⟨hg.orderly, hfg⟩

/-- Renaming keeps a flow orderly, also where it stops with an error. -/
theorem rename_settles (hf : f.Orderly) : Settles (rename policy) f (fun _ g => g.Orderly) Orderly := by
  unfold rename
  refine .of_bind (.of_view rfl (.of_bind ?_))
  refine (Settles.of_mapM (I := fun rest g => g.Orderly ∧ f.Persists g ∧ rest ⊆ f.liveStatements) ?_ _
    ⟨hf, .refl f, fun _ h => h⟩).mono fun _ g hg => .of_pure hg.1
  rintro s rest g ⟨hg, hfg, hrest⟩
  have hs := (hf.forest.mem_liveStatements.1 (hrest (List.mem_cons_self ..))).statementAt_ne_none
  refine (visitStatement_settles hpolicy hg (hfg.statement s hs)).mono fun _ h ⟨hh, hgh⟩ => ?_
  exact ⟨hh, hfg.trans hgh, fun s' hs' => hrest (List.mem_cons_of_mem _ hs')⟩

end Renaming

namespace StackRenaming

open Flow

variable {m : Machine} {negate : Bool} {f : Flow} {x : NodeId}

theorem exists_selects (hf : f.Orderly) (hx : f.exprAt x ≠ none) : ∃ b, selects m f x = .ok b := by
  obtain ⟨b, hb⟩ := PropagationPolicy.exists_isThetaInput hf.grounded.readable (exprAt_ne_none_iff_lt.1 hx)
  obtain ⟨e, he⟩ := Option.ne_none_iff_exists'.1 hx
  obtain ⟨p, hshape⟩ := exists_shapeAt_of_exprAt he
  obtain ⟨t, hterm, -⟩ := hf.grounded.term_eq hx
  obtain ⟨above, habove⟩ := hf.grounded.parentExpr?_eq hx
  unfold selects
  rw [hb, bind_ok]
  cases b with
  | true => exact ⟨false, rfl⟩
  | false =>
    simp only [Bool.false_eq_true, if_false, expr_eq hshape, bind_ok]
    cases e with
    | deref a v =>
      obtain ⟨u, hu, rfl, -⟩ := hf.grounded.spelledWithout he (c := a) (by simp [Expr.children])
      dsimp only
      rw [hu.term_eq]
      exact ⟨_, rfl⟩
    | register n v =>
      have hassigned : ∃ c, isAssigned f x = .ok c := by
        unfold isAssigned
        rw [habove]
        cases above with
        | none => exact ⟨_, rfl⟩
        | some e => cases e <;> exact ⟨_, rfl⟩
      obtain ⟨c, hc⟩ := hassigned
      dsimp only
      rw [hc, hterm]
      exact ⟨_, rfl⟩
    | _ =>
      dsimp only
      rw [hterm]
      exact ⟨_, rfl⟩

theorem exists_instructionOf (hf : f.Orderly) (hx : f.exprAt x ≠ none) : ∃ a, instructionOf f x = .ok a := by
  obtain ⟨-, -, r, hr⟩ := hf.grounded.readable x (exprAt_ne_none_iff_lt.1 hx)
  unfold instructionOf
  rw [hr, bind_ok]
  cases r with
  | none => exact ⟨_, rfl⟩
  | some s =>
    obtain ⟨T, -, ⟨st, hst, -⟩, -⟩ := hf.exists_within hx hr
    dsimp only
    rw [statement_eq hst]
    exact ⟨_, rfl⟩

theorem locate_settles (hf : f.Orderly) (hx : f.exprAt x ≠ none) :
    FrameRecovery.Settles (locate m negate x) f (fun _ g => g = f) Orderly := by
  obtain ⟨t, hterm, -⟩ := hf.grounded.term_eq hx
  obtain ⟨a, ha⟩ := exists_instructionOf hf hx
  unfold locate
  refine .of_bind (.of_view hterm ?_)
  split
  · exact .of_pure rfl
  · exact .of_bind (.of_view ha (.of_throw hf))

/-- Renaming into a frame can be done with any machine, wherever that finds the frame. -/
theorem policy_suits (m : Machine) (negate : Bool) : Renaming.Suits (policy m negate) := by
  intro f x hf hx
  refine ⟨exists_selects hf hx, ?_⟩
  change Renaming.Settles (replacement m negate x) f _ _
  unfold replacement
  refine .of_bind ((Renaming.Settles.of_pass (locate_settles hf hx)).mono ?_)
  rintro w f rfl
  refine .of_bind (.of_getThe fun frame => ?_)
  obtain ⟨⟨slot, frame'⟩, hassign⟩ : ∃ r, frame.assign w = r := ⟨_, rfl⟩
  rw [hassign]
  refine .of_bind (.of_set (.of_bind (.of_edit ((Edit.snapshot_orderly hf hx).mono ?_))))
  rintro _ f₁ ⟨t, rfl, hf₁, hgrows, hstands⟩
  have ho : f₁.exprAt t.id ≠ none := hstands.spells.exprAt_ne_none t.id_mem_preorder
  obtain ⟨⟨e, p⟩, hshape⟩ := Option.ne_none_iff_exists'.1 (exprAt_ne_none.1 ((Persists.of_grows hgrows).node x hx))
  -- a variable takes over no trees, and the address of one takes over the variable
  have hvar : ∀ v, ∃ e₁ xs, Expr.var (Frame.variableName slot) v t.id = Expr.map Term.id e₁ ∧
      Renaming.Prepares f f₁ e₁ xs := fun v => by
    refine ⟨.var _ v t.id, t.preorder, rfl, hf₁, hgrows, by simp [Expr.children], by simp [Expr.children],
      by simp [Expr.children], fun o ho' => ?_⟩
    cases ho'
    exact ho
  have halloc := Edit.alloc_orderly (e := .var (Frame.variableName slot) none t.id) hf₁ nofun List.nodup_nil
    fun o ho' => Option.some.inj ho' ▸ ho
  have hother : Renaming.Settles (σ := Frame) (do
      return .addressOf (← liftM (Edit.alloc (.var (Frame.variableName slot) none t.id)))) f₁
      (fun e g => ∃ e₁ xs, e = Expr.map Term.id e₁ ∧ Renaming.Prepares f g e₁ xs) Orderly := by
    refine .of_bind (.of_edit ((halloc.and (Pending.alloc_gives (e := .var _ none t.id) (.nil f₁))).mono ?_))
    rintro y f₂ ⟨⟨hf₂, -⟩, hpending, -⟩
    refine .of_pure ⟨.addressOf (.node y (.var (Frame.variableName slot) none t.id)), _, rfl, hf₂, hgrows.trans hpending.grows,
      fun c hc => ?_, fun c hc => ?_, by simp [Expr.children], nofun⟩
    · rw [List.mem_singleton.1 hc]
      exact hpending.stands _ (by simp)
    · rw [List.mem_singleton.1 hc]
      simp
  refine .of_bind (.of_view (expr_eq hshape) ?_)
  cases e with
  | deref a v =>
    refine .of_bind (.of_view (link_eq hshape) ?_)
    split <;> exact .of_pure (hvar _)
  | _ => exact hother

end StackRenaming

end FrameRecovery
