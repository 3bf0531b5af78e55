import FrameRecovery.Proofs.Flow.Counting
import FrameRecovery.Proofs.Flow.Walk
import FrameRecovery.Proofs.RegisterLinks
import FrameRecovery.Proofs.Session

namespace FrameRecovery

open Flow

namespace LocationKind

/-- Versions do not matter to what kind of node there is. -/
theorem count_strip {p : Expr.Test} {kind : LocationKind} (hp : ∀ e : Expr Unit, p (kind.untag e) = p e)
    (t : Term) : (kind.strip t).count p = t.count p := by
  induction t using Term.induction with
  | step i e ih =>
    have hhead : (kind.untag (e.map kind.strip)).head = kind.untag e.head := by
      rw [Expr.head, ← untag_map]
      exact congrArg kind.untag (Expr.head_map _ e)
    rw [strip_node, Term.count_node, Term.count_node, children_untag, Expr.children_map, hhead, hp,
      List.map_map]
    congr 2
    exact List.map_congr_left ih

theorem count_isTheta_strip (kind : LocationKind) (t : Term) :
    (kind.strip t).count Expr.isTheta = t.count Expr.isTheta :=
  count_strip (fun e => by cases kind <;> cases e <;> rfl) t

theorem count_isCall_strip (kind : LocationKind) (t : Term) :
    (kind.strip t).count Expr.isCall = t.count Expr.isCall :=
  count_strip (fun e => by cases kind <;> cases e <;> rfl) t

end LocationKind

theorem Term.count_isTheta_of_isMerge {t : Term} (h : t.isMerge = true) : t.count Expr.isTheta ≠ 0 := by
  intro hcount
  obtain ⟨i, e⟩ := t
  cases e with
  | assign x y =>
    have hy := count_eq_zero_iff.1 hcount y (.of_mem_children (by simp [Expr.children]))
    obtain ⟨j, e⟩ := y
    cases e <;> simp_all [isMerge, Expr.isTheta, Expr.head, Expr.map]
  | _ => simp [isMerge] at h

/-- In the assignment of a merge of registers there is nothing but the merge and the registers. -/
theorem Term.within_merge {i j k : NodeId} {l : String} {v : Option Nat} {xs : List Term} {u : Term}
    (hxs : ∀ x ∈ xs, ∃ w, x.expr = .register l w)
    (hu : Within u (.node i (.assign (.node k (.register l v)) (.node j (.theta xs))))) :
    u = .node i (.assign (.node k (.register l v)) (.node j (.theta xs))) ∨
      (u ∈ .node k (.register l v) :: xs ∧ ∃ w, u.expr = .register l w) ∨ u = .node j (.theta xs) := by
  have hregister : ∀ {t : Term}, t ∈ .node k (.register l v) :: xs → (∃ w, t.expr = .register l w) → Within u t →
      u ∈ .node k (.register l v) :: xs ∧ ∃ w, u.expr = .register l w := by
    rintro ⟨i, e⟩ ht ⟨w, rfl⟩ (_ | ⟨hc, -⟩)
    · exact ⟨ht, w, rfl⟩
    · cases hc
  cases hu with
  | refl => exact .inl rfl
  | inside hc hu =>
    simp only [Expr.children, List.mem_cons, List.not_mem_nil, or_false] at hc
    obtain rfl | rfl := hc
    · exact .inr (.inl (hregister (by simp) ⟨v, rfl⟩ hu))
    · cases hu with
      | refl => exact .inr (.inr rfl)
      | inside hc hu =>
        have hc : _ ∈ xs := hc
        exact .inr (.inl (hregister (by simp [hc]) (hxs _ hc) hu))

theorem Term.IsAction.count_isTheta_eq_zero {t : Term} (h : t.IsAction) : t.count Expr.isTheta = 0 := by
  refine Term.count_eq_zero_iff.2 fun u hu => ?_
  have hplain := h.plain hu
  obtain ⟨i, e⟩ := u
  cases e <;> simp_all [Expr.isPlain, Expr.isTheta, Expr.head, Expr.map]

namespace Flow

variable {f g : Flow} {V : Locations} {kind : LocationKind} {a : Address} {s w : StatementId} {t : Term}
  {x d r : NodeId} {ss pre post heads : List StatementId}

/-- A statement is executed on every way to the statement `s` that assigns to `d`. -/
def DefinedBefore (f : Flow) (d : NodeId) (s : StatementId) : Prop :=
  ∃ w r, f.Assigns w r d ∧ f.Precedes w s

theorem Holds.assigns {i : NodeId} {X Y : Term} (h : f.Holds s (.node i (.assign X Y))) :
    f.Assigns s i X.id := by
  obtain ⟨st, hst, hroot, hstands⟩ := h
  exact ⟨⟨st, hst, hroot⟩, Y.id, exprAt_eq_some hstands.shape_id⟩

/-- What a statement assigns to is in the statement. -/
theorem Assigns.exists_mem (h : f.Assigns s r d) (hf : f.Forest) : ∃ t, f.Holds s t ∧ d ∈ t.preorder := by
  obtain ⟨a, v, ht, rfl⟩ := h.exists_holds hf
  exact ⟨_, ht, by simp [Expr.children, Term.id_mem_preorder]⟩

/-- A statement assigns to one node. -/
theorem Assigns.eq {r' d' : NodeId} (h : f.Assigns s r d) (h' : f.Assigns s r' d') : d = d' := by
  obtain ⟨⟨st, hst, rfl⟩, y, hr⟩ := h
  obtain ⟨⟨st', hst', rfl⟩, y', hr'⟩ := h'
  obtain rfl := Option.some.inj (hst.symm.trans hst')
  rw [hr] at hr'
  exact (Expr.assign.inj (Option.some.inj hr')).1

theorem Forest.exists_statementsAt (hf : f.Forest) (hs : f.Live s) : ∃ a, s ∈ f.statementsAt a := by
  obtain ⟨st, hst, hremoved⟩ := hs
  exact ⟨st.block, hf.mem_statementsAt.2 ⟨st, hst, hremoved, rfl⟩⟩

theorem Forest.exists_holds_of_operands (hf : f.Forest) (hs : s ∈ f.statementsAt a) {xs : List NodeId}
    (h : (f.operands s).toOption = some xs) (hx : x ∈ xs) : ∃ t, f.Live s ∧ f.Holds s t ∧ x ∈ t.preorder := by
  obtain ⟨t, ht⟩ := hf.exists_holds hs
  rw [ht.operands_eq] at h
  obtain rfl : t.preorder.tail = xs := Option.some.inj h
  exact ⟨t, hf.live hs, ht, List.mem_of_mem_tail hx⟩

/-- Ways through a flow depend on its blocks alone. -/
theorem Walk.of_blocks_eq (h : g.Walk ss s) (hentry : g.entry = f.entry) (hblocks : g.blocks = f.blocks) :
    f.Walk ss s := by
  obtain ⟨as, a, pre, post, hpath, hsplit, rfl⟩ := h
  have hstatements : g.statementsAt = f.statementsAt := by
    funext a
    simp [statementsAt, block?, hblocks]
  exact ⟨as, a, pre, post, (SameGraph.of_blocks_eq hentry hblocks).symm.path hpath, hstatements ▸ hsplit,
    by rw [hstatements]⟩

end Flow

namespace Tagging

variable {f g : Flow} {V : Locations} {kind : LocationKind} {a : Address} {s w : StatementId} {t : Term}
  {x d : NodeId} {ss pre post heads : List StatementId} {r : Read}

section Tagged

variable (ht : Tagged V f kind g) (hf : f.Forest) (hconnected : f.Connected)
include ht hf hconnected

/-- A way to a place in the tagged flow is one through the flow before, with the merges at the heads of the
    blocks. -/
theorem Tagged.exists_path_of_split (hsplit : g.statementsAt a = pre ++ s :: post) (hwalk : g.Walk ss s) :
    ∃ as, f.Path as a ∧ as.flatMap f.statementsAt ⊆ ss ∧ pre ⊆ ss := by
  obtain ⟨as, a', pre', post', hpath, hsplit', rfl⟩ := hwalk
  obtain ⟨rfl, rfl⟩ := ht.sound.forest.split_unique hsplit hsplit'
  refine ⟨as, ht.later.graph.symm.path hpath, fun c hc => ?_, List.subset_append_right ..⟩
  obtain ⟨b, hb, hc⟩ := List.mem_flatMap.1 hc
  have hbne : f.block? b ≠ none := by
    intro hnone
    simp [statementsAt, hnone] at hc
  obtain ⟨heads', hexact'⟩ := ht.exact hf hconnected hbne
  refine List.mem_append_left _ (List.mem_flatMap.2 ⟨b, hb, ?_⟩)
  rw [hexact'.statements_eq]
  exact List.mem_append_right _ hc

/-- A way to a statement of before passes the merges at the head of its block. -/
theorem Tagged.exists_path (hexact : Exact f g kind a heads) (hsplit : f.statementsAt a = pre ++ s :: post)
    (hwalk : g.Walk ss s) :
    ∃ as, f.Path as a ∧ as.flatMap f.statementsAt ++ pre ⊆ ss ∧ heads ⊆ ss := by
  have hsplitg : g.statementsAt a = (heads ++ pre) ++ s :: post := by
    rw [hexact.statements_eq, hsplit, List.append_assoc]
  obtain ⟨as, hpath, hsub, hpre⟩ := ht.exists_path_of_split hf hconnected hsplitg hwalk
  obtain ⟨hheads, hpre⟩ := List.append_subset.1 hpre
  exact ⟨as, hpath, List.append_subset.2 ⟨hsub, hpre⟩, hheads⟩

theorem Tagged.precedes (hs : f.Live s) (hws : f.Precedes w s) : g.Precedes w s := by
  intro ss hwalk
  obtain ⟨a, hmem⟩ := hf.exists_statementsAt hs
  obtain ⟨pre, post, hsplit⟩ := List.append_of_mem hmem
  have ha : f.block? a ≠ none := by
    intro hnone
    simp [statementsAt, hnone] at hmem
  obtain ⟨heads, hexact⟩ := ht.exact hf hconnected ha
  obtain ⟨as, hpath, hsub, -⟩ := ht.exists_path hf hconnected hexact hsplit hwalk
  exact hsub (hws _ (hpath.walk hsplit))

/-- A statement of the tagged flow is a merge at the head of a block, or was there before. -/
theorem Tagged.exists_place (hs : g.Live s) :
    ∃ a heads, Exact f g kind a heads ∧ (s ∈ heads ∨ s ∈ f.statementsAt a) := by
  obtain ⟨a, ha⟩ := ht.sound.forest.exists_statementsAt hs
  have hblock : f.block? a ≠ none := ht.later.graph.symm.ne_none fun hnone => by
    simp [statementsAt, hnone] at ha
  obtain ⟨heads, hexact⟩ := ht.exact hf hconnected hblock
  rw [hexact.statements_eq, List.mem_append] at ha
  exact ⟨a, heads, hexact, ha⟩

/-- What a read that was found is linked to is assigned before. -/
theorem Tagged.definedBefore_of_readIn (hs : s ∈ f.statementsAt a) (hr : r ∈ BlockPlan.readsAt f kind s)
    (hlink : g.linkOf r.operand = .use (some d)) : g.DefinedBefore d s := by
  obtain ⟨pre, post, hsplit⟩ := List.append_of_mem hs
  have ha : f.block? a ≠ none := by
    intro hnone
    simp [statementsAt, hnone] at hs
  obtain ⟨heads, hexact⟩ := ht.exact hf hconnected ha
  obtain ⟨D, ⟨v, -, hlink', -⟩, hreaches⟩ := hexact.read pre s post hsplit r hr
  obtain rfl : some d = D := Link.use.inj (hlink.symm.trans hlink')
  have hlive : ∀ c ∈ pre, f.Live c := fun c hc => hf.live (a := a) (by simp [hsplit, hc])
  cases hreaches with
  | always h =>
    -- the statement that assigns last on one way is met on all of them
    have hsite : ∀ as, f.Path as a → ∃ c ∈ as.flatMap f.statementsAt ++ pre, ∃ i, f.Assigns c i d := by
      intro as has
      obtain ⟨D, hD, -, hsite⟩ := Definition.exists_of_lastSite? (h as has)
      obtain ⟨c, hc, hD⟩ := List.mem_filterMap.1 hD
      obtain ⟨t, hholds⟩ : ∃ t, f.Holds c t := by
        rcases List.mem_append.1 hc with hc | hc
        · obtain ⟨b, -, hc⟩ := List.mem_flatMap.1 hc
          exact hf.exists_holds hc
        · exact hf.holds_of_live (hlive c hc)
      obtain ⟨i, X, Y, rfl, -, hX, -⟩ := (Summary.mem_definitionOf hholds).1 hD
      exact ⟨c, hc, i, hsite ▸ hX ▸ hholds.assigns⟩
    obtain ⟨as₀, has₀⟩ := hconnected.path a ha
    obtain ⟨w, -, i, hw⟩ := hsite as₀ has₀
    refine ⟨w, i, hw.later ht.later, fun ss hwalk => ?_⟩
    obtain ⟨as, hpath, hsub, -⟩ := ht.exists_path hf hconnected hexact hsplit hwalk
    obtain ⟨c, hc, j, hassigns⟩ := hsite as hpath
    obtain ⟨t, hholds, hd⟩ := hw.exists_mem hf
    obtain ⟨t', hholds', hd'⟩ := hassigns.exists_mem hf
    exact hholds.statement_unique hholds' hd hd' ▸ hsub hc
  | @merged m _ points hm hjoins hnone =>
    obtain ⟨st, y, inputs, v, hst, hroot, -⟩ := hjoins.merges
    refine ⟨m, st.root, ⟨⟨st, hst, rfl⟩, y, hroot⟩, fun ss hwalk => ?_⟩
    obtain ⟨-, -, -, hsub⟩ := ht.exists_path hf hconnected hexact hsplit hwalk
    exact hsub hm

end Tagged

/-- There are no merges in what was there before the registers were tagged. -/
theorem Tagged.count_isTheta_of_mem (ht : Tagged V f .registers g) (hf : f.Plain) (hs : s ∈ f.statementsAt a)
    (hT : g.Holds s t) : t.count Expr.isTheta = 0 := by
  obtain ⟨t₀, hholds⟩ := hf.forest.exists_holds hs
  rw [← LocationKind.count_isTheta_strip .registers, ht.later.strip_eq_of_plain hf hholds hT]
  exact (hf.action s t₀ hholds).count_isTheta_eq_zero

/-- The topmost node of a statement in which registers were tagged is an instruction. -/
theorem Tagged.isAction (ht : Tagged V f .registers g) (hf : f.Plain) (hconnected : f.Connected) (hs : g.Live s)
    (hholds : g.Holds s t) : t.expr.isAction = true := by
  obtain ⟨a, heads, hexact, hhead | hbefore⟩ := ht.exists_place hf.forest hconnected hs
  · have hmerge := (hexact.head s hhead).isMerge hholds
    rw [hholds.isMerge_eq] at hmerge
    obtain ⟨i, e⟩ := t
    cases e <;> first | rfl | cases hmerge
  · obtain ⟨t₀, hholds₀⟩ := hf.forest.exists_holds hbefore
    have haction := (hf.action s t₀ hholds₀).action
    rw [← ht.later.strip_eq_of_plain hf hholds₀ hholds] at haction
    obtain ⟨i, e⟩ := t
    cases e <;> first | rfl | cases haction

end Tagging

namespace PropagationPolicy

variable {m : Machine} {f : Flow} {s c : StatementId} {r u : NodeId} {a v T : Term}

/-- The value of the stack pointer is put in the place of its reads if it can be computed anywhere, apart from
    those reads that merges make. -/
theorem stackPointer_eq_true_iff (hS : f.Holds s (.node r (.assign a v))) (hT : f.Holds c T)
    (hu : u ∈ T.preorder) : stackPointer m f a.id v.id u = .ok true ↔
      m.isStackPointer a = true ∧ ¬ f.IsInput u ∧ v.isReplaceable = true := by
  have ha : Term.Within a (.node r (.assign a v)) := .of_mem_children (by simp [Expr.children])
  have hv : Term.Within v (.node r (.assign a v)) := .of_mem_children (by simp [Expr.children])
  rw [← isThetaInput_eq_false_iff hT hu]
  obtain ⟨b, hb⟩ := isThetaInput_eq hT hu
  unfold stackPointer
  rw [hS.term_eq ha, bind_ok, hS.term_eq hv, hb]
  cases m.isStackPointer a with
  | false => simp [pure, Except.pure]
  | true => cases b <;> simp [bind_ok, pure, Except.pure]

end PropagationPolicy

/-- Of what is no arithmetic there is no more in the outcome than in a statement and the value that is put into it. -/
theorem Propagation.Inlined.count_le {f g : Flow} {around : StatementId} {u : NodeId} {v T T' : Term}
    {p : Expr.Test} (h : Inlined f g around u v T T') (hp : p.IsApart) : T'.count p ≤ T.count p + v.count p := by
  obtain ⟨b, T₁, hform, hchange, hrewrites⟩ := h.change
  obtain ⟨w, b, ⟨-, rfl⟩, -, heq⟩ := hchange.exists_count (p := p)
  have hb : b.count p = v.count p := by
    rw [← Term.count_form, hform, Term.count_form]
  rw [Term.Rewrites.count_eq hp hrewrites]
  omega

namespace Flow

/-- A merge of registers alone: it reads nothing but its operands, and has no dereference. -/
structure MergesRegisters (f : Flow) (t : Term) : Prop where
  isMerge : t.isMerge = true
  inputs : ∀ x ∈ t.preorder, ∀ d, f.linkOf x = .use (some d) → f.IsInput x
  no_deref : ∀ u, Term.Within u t → ∀ x v, u.expr ≠ .deref x v

/-- What is read is assigned before, apart from the operands of merges; and merges are of registers
    alone, each in a statement of its own. -/
structure Ordered (f : Flow) : Prop where
  reads : ∀ s t x d, f.Live s → f.Holds s t → x ∈ t.preorder → f.linkOf x = .use (some d) →
    f.IsInput x ∨ f.DefinedBefore d s
  merges : ∀ s t, f.Live s → f.Holds s t → t.count Expr.isTheta = 0 ∨ f.MergesRegisters t

/-- In `around`, where the tree `T` was, a read of the register `a` has made way for the value `v` that
    the statement `s` assigns to it. Neither statement has a merge. -/
structure Move (V : Locations) (f g : Flow) (s around : StatementId) (r u : NodeId) (a v T T' : Term) : Prop where
  sound : f.Sound V
  live : f.Live s
  source : f.Holds s (.node r (.assign a v))
  source_apart : (Term.node r (.assign a v)).count Expr.isTheta = 0
  live_around : f.Live around
  holds : f.Holds around T
  apart : T.count Expr.isTheta = 0
  apart' : T'.count Expr.isTheta = 0
  mem : u ∈ T.preorder
  link : f.linkOf u = .use (some a.id)
  replaceable : v.isReplaceable = true
  substituted : Propagation.Substituted V f g u
  inlined : Propagation.Inlined f g around u v T T'

/-- An operand of a merge is in a statement with a merge. -/
theorem Holds.not_isInput {f : Flow} {s : StatementId} {T : Term} {x : NodeId} (hT : f.Holds s T)
    (hcount : T.count Expr.isTheta = 0) (hx : x ∈ T.preorder) : ¬ f.IsInput x := by
  rw [hT.isInput_iff hx]
  rintro ⟨i, xs, -, hwithin, -⟩
  cases Term.count_eq_zero_iff.1 hcount _ hwithin

namespace Move

variable {f g : Flow} {V : Locations} {s around c : StatementId} {r u : NodeId} {a v t T T' : Term}
  {ss : List StatementId} (h : Move V f g s around r u a v T T')
include h

theorem liveStatements_eq : g.liveStatements = f.liveStatements := by
  unfold liveStatements
  rw [h.substituted.blocks_eq]

theorem live_iff : g.Live c ↔ f.Live c := by
  rw [← h.sound.forest.mem_liveStatements, ← h.substituted.sound.forest.mem_liveStatements, h.liveStatements_eq]

theorem walk_iff : g.Walk ss c ↔ f.Walk ss c :=
  ⟨fun hwalk => hwalk.of_blocks_eq h.substituted.entry_eq h.substituted.blocks_eq,
    fun hwalk => hwalk.of_blocks_eq h.substituted.entry_eq.symm h.substituted.blocks_eq.symm⟩

theorem evolves : f.Evolves (fun t t' => t' = t ∨ t = T ∧ t' = T') g := by
  refine ⟨h.inlined.address, fun c t ht => ?_⟩
  by_cases hc : c = around
  · subst hc
    exact ⟨T', h.inlined.holds, .inr ⟨ht.unique h.holds, rfl⟩⟩
  · exact ⟨t, h.inlined.others c t hc ht, .inl rfl⟩

theorem holds_other (hc : f.Live c) (hne : c ≠ around) (ht : g.Holds c t) : f.Holds c t := by
  obtain ⟨t₀, ht₀⟩ := h.sound.forest.holds_of_live hc
  exact ht.unique (h.inlined.others c t₀ hne ht₀) ▸ ht₀

/-- What is moved is assigned before. -/
theorem precedes (hf : f.Ordered) : f.Precedes s around := by
  obtain ⟨w, i, hassigns, hprecedes⟩ :=
    (hf.reads around T u a.id h.live_around h.holds h.mem h.link).resolve_left (h.holds.not_isInput h.apart h.mem)
  obtain ⟨t, ht, hmem⟩ := hassigns.exists_mem h.sound.forest
  have ha : a.id ∈ (Term.node r (.assign a v)).preorder := by
    simp [Expr.children, Term.id_mem_preorder]
  exact ht.statement_unique h.source hmem ha ▸ hprecedes

/-- Replacing a read by the value of the definition keeps the reads in order. -/
theorem ordered (hf : f.Ordered) : g.Ordered := by
  have hv : Term.Within v (.node r (.assign a v)) := .of_mem_children (by simp [Expr.children])
  have hbefore : ∀ {c d}, f.DefinedBefore d c → g.DefinedBefore d c := by
    rintro c d ⟨w, i, hassigns, hprecedes⟩
    exact ⟨w, i, h.substituted.assigns w i d hassigns, fun ss hwalk => hprecedes ss (h.walk_iff.1 hwalk)⟩
  have holdlink : ∀ {c t y D}, f.Holds c t → y ∈ t.preorder → g.linkOf y = .use D → f.linkOf y = .use D :=
    fun ht hy hD => h.inlined.old _ _ (exprAt_ne_none.2 (ht.stands.shapeAt_ne_none hy)) hD
  refine ⟨fun c t x d hc ht hx hd => ?_, fun c t hc ht => ?_⟩
  · by_cases hne : c = around
    · subst hne
      obtain rfl := ht.unique h.inlined.holds
      obtain ⟨hxT, hxd⟩ | ⟨y, hy, hyd⟩ := h.inlined.read x hx _ hd
      · exact .inr (hbefore ((hf.reads c T x d h.live_around h.holds hxT hxd).resolve_left
          (h.holds.not_isInput h.apart hxT)))
      · -- what the value reads is assigned before the definition, and that comes before its read
        have hyS := hv.preorder_subset hy
        obtain ⟨w, i, hassigns, hws⟩ :=
          (hf.reads s _ y d h.live h.source hyS hyd).resolve_left (h.source.not_isInput h.source_apart hyS)
        exact .inr (hbefore ⟨w, i, hassigns, hws.trans (h.precedes hf) h.sound.forest⟩)
    · have ht₀ := h.holds_other (h.live_iff.1 hc) hne ht
      refine (hf.reads c t x d (h.live_iff.1 hc) ht₀ hx (holdlink ht₀ hx hd)).imp (fun hinput => ?_) hbefore
      exact (ht.isInput_iff hx).2 ((ht₀.isInput_iff hx).1 hinput)
  · by_cases hne : c = around
    · subst hne
      obtain rfl := ht.unique h.inlined.holds
      exact .inl h.apart'
    · have ht₀ := h.holds_other (h.live_iff.1 hc) hne ht
      refine (hf.merges c t (h.live_iff.1 hc) ht₀).imp_right fun hm => ⟨hm.isMerge, fun x hx d hd => ?_, hm.no_deref⟩
      exact (ht.isInput_iff hx).2 ((ht₀.isInput_iff hx).1 (hm.inputs x hx d (holdlink ht₀ hx hd)))

/-- What reads a definition afterwards did so before, or has the link of something in the value. -/
theorem read_cases {x d : NodeId} (hx : g.linkOf x = .use (some d)) :
    (∃ c t, f.Holds c t ∧ x ∈ t.preorder ∧ f.linkOf x = .use (some d) ∧ (g.IsInput x ↔ f.IsInput x)) ∨
      ∃ y ∈ v.preorder, f.linkOf y = .use (some d) := by
  obtain ⟨c, t, hc, ht, hmem⟩ := h.substituted.sound.held x (by simp [hx])
  by_cases hne : c = around
  · subst hne
    obtain rfl := ht.unique h.inlined.holds
    refine (h.inlined.read x hmem _ hx).imp_left fun ⟨hmemT, hlink⟩ => ⟨c, T, h.holds, hmemT, hlink, ?_⟩
    exact iff_of_false (ht.not_isInput h.apart' hmem) (h.holds.not_isInput h.apart hmemT)
  · have ht₀ := h.holds_other (h.live_iff.1 hc) hne ht
    have hlink := h.inlined.old x _ (exprAt_ne_none.2 (ht₀.stands.shapeAt_ne_none hmem)) hx
    exact .inl ⟨c, t, ht₀, hmem, hlink, (ht.isInput_iff hmem).trans (ht₀.isInput_iff hmem).symm⟩

end Move

namespace Ordered

variable {f g : Flow} {V : Locations} {s w : StatementId} {t S T : Term} {x d : NodeId} {m : Machine}

theorem count_isTheta (hf : f.Ordered) (hs : f.Live s) (hT : f.Holds s T) (hmerge : f.isMerge s = false) :
    T.count Expr.isTheta = 0 := by
  refine (hf.merges s T hs hT).resolve_right fun hm => ?_
  rw [hT.isMerge_eq, hm.isMerge] at hmerge
  cases hmerge

/-- Tagging the registers of a listing puts the reads in order. -/
theorem of_tagged (ht : Tagging.Tagged V f .registers g) (hf : f.Plain) (hconnected : f.Connected) :
    g.Ordered := by
  refine ⟨fun s T x d hs hT hx hlink => ?_, fun s T hs hT => ?_⟩
  · cases ht.sources x d hlink with
    | kept h => simp [hf.unlinked] at h
    | input h => exact .inl h
    | @found a r h hr =>
      obtain ⟨s', t, hs', hholds, hread⟩ := h
      subst hr
      obtain ⟨t', hholds', -, hpreorder⟩ := ht.later.exists_holds hholds
      obtain rfl := hT.statement_unique hholds' hx
        (hpreorder ▸ List.mem_of_mem_tail (BlockPlan.operand_mem hholds hread))
      exact .inr (ht.definedBefore_of_readIn hf.forest hconnected hs' hread hlink)
    | @copied a m _ T' _ _ _ _ hfresh hm hT' hx' =>
      obtain rfl := hT.statement_unique hT' hx hx'
      obtain ⟨a', heads, hexact, hheads | hbefore⟩ := ht.exists_place hf.forest hconnected hs
      · exact .inl (ht.isInput_of_head hexact hheads hT hx hlink)
      · obtain ⟨st, hst, -⟩ := hf.forest.live hbefore
        simp [hst] at hfresh
  · obtain ⟨a, heads, hexact, hheads | hbefore⟩ := ht.exists_place hf.forest hconnected hs
    · refine .inr ⟨?_, fun x hx d hlink => ht.isInput_of_head hexact hheads hT hx hlink, fun u hu => ?_⟩
      · rw [← hT.isMerge_eq]
        exact ht.isMerge_of_head hexact hheads
      · obtain ⟨-, l, d, points, hjoins⟩ := hexact.head s hheads
        obtain ⟨i, v, j, inputs, rfl, -, hregister⟩ :=
          Tagging.Merges.exists_eq hjoins.merges ht.sound.forest hT
        intro x w hexpr
        obtain rfl | ⟨-, w', hexpr'⟩ | rfl := Term.within_merge hregister hu
        · cases hexpr
        · rw [hexpr'] at hexpr
          cases hexpr
        · cases hexpr
    · exact .inl (ht.count_isTheta_of_mem hf hbefore hT)

/-- When the stack pointer is propagated, no merge has a part in it. -/
theorem move (hf : f.Ordered) {around : StatementId} {r u : NodeId} {a v T' : Term} (hsound : f.Sound V)
    (hS : f.Holds s (.node r (.assign a v))) (hT : f.Holds around T) (hu : u ∈ T.preorder)
    (hlink : f.linkOf u = .use (some a.id)) (happroved : PropagationPolicy.stackPointer m f a.id v.id u = .ok true)
    (hg : Propagation.Substituted V f g u) (hin : Propagation.Inlined f g around u v T T') :
    m.isStackPointer a = true ∧ Move V f g s around r u a v T T' := by
  have hv : Term.Within v (.node r (.assign a v)) := .of_mem_children (by simp [Expr.children])
  obtain ⟨hpointer, hinput, hreplaceable⟩ := (PropagationPolicy.stackPointer_eq_true_iff hS hT hu).1 happroved
  have hheld : ∀ {c y T}, f.Holds c T → y ∈ T.preorder → f.linkOf y ≠ .unlinked → f.Live c := by
    intro c y T hT hy hlink
    obtain ⟨c', T', hc', hT', hy'⟩ := hsound.held y hlink
    exact hT.statement_unique hT' hy hy' ▸ hc'
  have ha : a.id ∈ (Term.node r (.assign a v)).preorder := by
    simp [Expr.children, Term.id_mem_preorder]
  have hslive : f.Live s := hheld hS ha <| by
    rw [Link.eq_definition_of_mem_uses ((hsound.mirrored.recorded u a.id).1 hlink)]
    simp only [ne_eq, reduceCtorEq, not_false_eq_true]
  have hTlive : f.Live around := hheld hT hu (by simp [hlink])
  -- neither of the two statements has a merge
  have hcountT : T.count Expr.isTheta = 0 :=
    (hf.merges around T hTlive hT).resolve_right fun h => hinput (h.inputs u hu _ hlink)
  have hcountS : (Term.node r (.assign a v)).count Expr.isTheta = 0 := by
    refine (hf.merges s _ hslive hS).resolve_right fun h => ?_
    have hmerge := h.isMerge
    obtain ⟨i, e⟩ := v
    cases e <;> simp_all [Term.isMerge, Expr.isTheta, Term.isReplaceable, Term.fold_node, Expr.map]
  have hcount : T'.count Expr.isTheta = 0 := by
    have hle := hv.count_le (p := Expr.isTheta)
    have hcount := hin.count_le Expr.isApart_isTheta
    omega
  exact ⟨hpointer, hsound, hslive, hS, hcountS, hTlive, hT, hcountT, hcount, hu, hlink, hreplaceable, hg, hin⟩

theorem exists_move (hf : f.Ordered) (h : Propagation.Step (.stackPointer m) V f g) :
    ∃ s around r u a v T T', m.isStackPointer a = true ∧ Move V f g s around r u a v T T' := by
  obtain @⟨s, around, r, u, a, v, T, T', hsound, hS, hT, hu, hlink, happroved, hg, hin, -⟩ := h
  exact ⟨s, around, r, u, a, v, T, T', hf.move hsound hS hT hu hlink happroved hg hin⟩

/-- Replacing reads, one after the other, keeps the reads in order. -/
theorem steps (hf : f.Ordered) (h : Relation.ReflTransGen (Propagation.Step (.stackPointer m) V) f g) :
    g.Ordered := by
  induction h with
  | refl => exact hf
  | tail _ h ih =>
    obtain ⟨s, around, r, u, a, v, T, T', -, hmove⟩ := ih.exists_move h
    exact hmove.ordered ih

end Ordered

/-- The statement `w` comes after the statement `s` in the block of that. -/
def ComesAfter (f : Flow) (w s : StatementId) : Prop :=
  ∃ a pre between post, f.statementsAt a = pre ++ s :: between ++ w :: post

/-- What precedes a statement of a block precedes each one before it in the block, or comes after
    that. -/
theorem Precedes.or_comesAfter {f : Flow} {a : Address} {w s c : StatementId} {pre between post : List StatementId}
    (hwc : f.Precedes w c) (hf : f.Forest) (hsplit : f.statementsAt a = pre ++ s :: between ++ c :: post)
    (hws : w ≠ s) : f.Precedes w s ∨ f.ComesAfter w s := by
  by_cases hw : w ∈ between
  · obtain ⟨before, after, rfl⟩ := List.append_of_mem hw
    exact .inr ⟨a, pre, before, after ++ c :: post, by simp [hsplit]⟩
  · refine .inl ?_
    rintro ss ⟨as, a', pre', post', hpath, hsplit', rfl⟩
    have hsplits : f.statementsAt a = pre ++ s :: (between ++ c :: post) := by simp [hsplit]
    obtain ⟨rfl, rfl⟩ := hf.split_unique hsplits hsplit'
    -- the way goes on to the third statement
    have hmem := hwc _ (hpath.walk hsplit)
    simp only [List.mem_append, List.mem_cons, hws, hw, or_false] at hmem
    exact List.mem_append.2 hmem

end Flow

namespace Tagging

variable {f g : Flow} {V : Locations} {kind : LocationKind} {a : Address} {s : StatementId} {t : Term}
  {x d : NodeId}

section Derefs

variable (ht : Tagged V f .derefs g) (hf : f.Sound V) (hconnected : f.Connected) (hordered : f.Ordered)
include ht hf hconnected hordered

/-- In the statements of before, what is read is assigned before. -/
theorem Tagged.definedBefore_of_mem (hs : s ∈ f.statementsAt a) (hholds : f.Holds s t) (hx : x ∈ t.preorder)
    (hlink : g.linkOf x = .use (some d)) (hinput : ¬ g.IsInput x) : g.DefinedBefore d s := by
  obtain ⟨t', hholds', -, hpreorder⟩ := ht.later.exists_holds hholds
  have hlive := hf.forest.live hs
  cases ht.sources x d hlink with
  | kept h =>
    obtain hinput' | ⟨w, i, hassigns, hprecedes⟩ := hordered.reads s t x d hlive hholds hx h
    · exact absurd (hinput'.later ht.later) hinput
    · exact ⟨w, i, hassigns.later ht.later, ht.precedes hf.forest hconnected hlive hprecedes⟩
  | input h => exact absurd h hinput
  | found h hr =>
    obtain ⟨s', t₁, hs', hholds₁, hread⟩ := h
    subst hr
    obtain rfl := hholds.statement_unique hholds₁ hx
      (List.mem_of_mem_tail (BlockPlan.operand_mem hholds₁ hread))
    exact ht.definedBefore_of_readIn hf.forest hconnected hs' hread hlink
  | copied hfresh hm hT hx' =>
    obtain rfl := hholds'.statement_unique hT (hpreorder ▸ hx) hx'
    obtain ⟨st, hst, -⟩ := hlive
    simp [hst] at hfresh

omit hconnected in
/-- A read in a statement in which memory is read is no operand of a merge. -/
theorem Tagged.not_isInput_of_mem (hs : s ∈ f.statementsAt a) (hholds : f.Holds s t) {r : Read}
    (hr : r ∈ BlockPlan.readsAt f .derefs s) (hx : x ∈ t.preorder) : ¬ g.IsInput x := by
  have hcount : t.count Expr.isTheta = 0 := by
    refine (hordered.merges s t (hf.forest.live hs) hholds).resolve_right fun h => ?_
    obtain ⟨i, e, u, hwithin, hu, -, hlocate, -⟩ := (BlockPlan.mem_readsAt hholds).1 hr
    obtain ⟨j, eu⟩ := u
    have hderef := h.no_deref _ ((Term.Within.of_mem_children hu).trans hwithin)
    cases eu <;> simp_all [LocationKind.locate]
  obtain ⟨t', hholds', -, hpreorder⟩ := ht.later.exists_holds hholds
  refine hholds'.not_isInput ?_ (hpreorder ▸ hx)
  rw [← LocationKind.count_isTheta_strip .derefs, ht.later.strip_eq hholds hholds',
    LocationKind.count_isTheta_strip, hcount]

/-- What is read anywhere is assigned before, apart from the operands of merges; what is read in the
    address of a merge may be assigned further down in the block of the merge. -/
theorem Tagged.assigned_before (hs : g.Live s) (hholds : g.Holds s t) (hx : x ∈ t.preorder)
    (hlink : g.linkOf x = .use (some d)) (hinput : ¬ g.IsInput x) :
    ∃ w i, g.Assigns w i d ∧ (g.Precedes w s ∨ g.isMerge s = true ∧ g.ComesAfter w s) := by
  obtain ⟨a, heads, hexact, hhead | hbefore⟩ := ht.exists_place hf.forest hconnected hs
  · have hfresh := (hexact.head s hhead).fresh
    have hnew : ∀ {s' T}, f.Holds s' T → x ∉ T.preorder := by
      intro s' T hT hxT
      obtain ⟨T', hT', -, hpreorder⟩ := ht.later.exists_holds hT
      obtain rfl := hholds.statement_unique hT' hx (hpreorder ▸ hxT)
      obtain ⟨st, hst, -⟩ := hT
      simp [hst] at hfresh
    cases ht.sources x d hlink with
    | kept h =>
      obtain ⟨s', T, -, hT, hxT⟩ := hf.held x (by simp [h])
      exact absurd hxT (hnew hT)
    | input h => exact absurd h hinput
    | found h hr =>
      obtain ⟨s', T, -, hT, hread⟩ := h
      exact absurd (hr ▸ List.mem_of_mem_tail (BlockPlan.operand_mem hT hread)) (hnew hT)
    | @copied a' m c T T₀ d' y _ _ hm hT hxT hassigns' hd hc hT₀ hread hy hlinky =>
      obtain rfl := hholds.statement_unique hT hx hxT
      obtain ⟨w, i, hassigns, hprecedes⟩ := ht.definedBefore_of_mem hf hconnected hordered hc hT₀ hy hlinky
        (ht.not_isInput_of_mem hf hordered hc hT₀ hread hy)
      have hws : w ≠ s := by
        rintro rfl
        exact hd (hassigns'.eq hassigns)
      -- the merge is in front of the statement that its address comes from
      obtain ⟨before, after, rfl⟩ := List.append_of_mem hhead
      obtain ⟨pre, post, hsplit⟩ := List.append_of_mem hc
      obtain rfl : a = a' := by
        obtain ⟨pre', post', hsplit'⟩ := List.append_of_mem hm
        have hsplit₀ : g.statementsAt a = before ++ s :: (after ++ f.statementsAt a) := by
          simp [hexact.statements_eq]
        exact (ht.sound.forest.split_unique hsplit₀ hsplit').1
      have hsplitg : g.statementsAt a = before ++ s :: (after ++ pre) ++ c :: post := by
        simp [hexact.statements_eq, hsplit]
      have hmerge := (hexact.head s hhead).isMerge hholds
      exact ⟨w, i, hassigns, (hprecedes.or_comesAfter ht.sound.forest hsplitg hws).imp_right (⟨hmerge, ·⟩)⟩
  · obtain ⟨t₀, hholds₀⟩ := hf.forest.exists_holds hbefore
    obtain ⟨t', hholds', -, hpreorder⟩ := ht.later.exists_holds hholds₀
    obtain rfl := hholds.unique hholds'
    obtain ⟨w, i, hassigns, hprecedes⟩ := ht.definedBefore_of_mem hf hconnected hordered hbefore hholds₀
      (hpreorder ▸ hx) hlink hinput
    exact ⟨w, i, hassigns, .inl hprecedes⟩

end Derefs

end Tagging

namespace Recovery.Course

variable {t : Task} {entry : Address} {S : Phase → Session} (h : Course t entry S)
include h

theorem connected_stackPropagated : (S .stackPropagated).flow.Connected :=
  (SameGraph.of_blocks_eq h.propagated.entry_eq h.propagated.blocks_eq).connected
    (h.registers.later.graph.connected h.connected)

theorem ordered_stackPropagated : (S .stackPropagated).flow.Ordered :=
  (Ordered.of_tagged h.registers h.plain h.connected).steps h.propagated.steps

end Recovery.Course

/-- When the dereferences are linked, whatever is read is assigned on every way to the statement that
    reads it, apart from the operands of merges. What is read in the address of a merge may be
    assigned further down in the block of the merge. -/
theorem Session.assigned_before_read {text name stackPointer : String} {l : Listing} {options : Options}
    {entry : Address} {s : Session} (hl : Listing.parse text = .ok l)
    (hs : (Task.mk l { name, stackPointer } options).sessionAt? entry .ssaDerefs = some s)
    {c : StatementId} {t : Term} {x d : NodeId} (hc : s.flow.Live c) (ht : s.flow.Holds c t)
    (hx : x ∈ t.preorder) (hlink : s.flow.linkOf x = .use (some d)) (hinput : ¬ s.flow.IsInput x) :
    ∃ w i, s.flow.Assigns w i d ∧
      (s.flow.Precedes w c ∨ s.flow.isMerge c = true ∧ s.flow.ComesAfter w c) := by
  obtain ⟨S, h, rfl⟩ := Recovery.exists_course_of_sessionAt?
    (t := ⟨l, { name, stackPointer }, options⟩) (Listing.wellFormed_of_parse hl) rfl (by decide) hs
  exact h.derefs.assigned_before (h.propagated.sound.mono fun _ => Locations.named_of_listed)
    h.connected_stackPropagated h.ordered_stackPropagated hc ht hx hlink hinput

/-- A loop in which memory is read where the call in it tells, and is written there after that. -/
def copiedText : String :=
  "0: goto 1\n1: ecx = call 9()\n2: eax = [ecx]\n3: [ecx] = 5\n4: goto 1"

/-- The state in which the dereferences of the loop are linked. -/
def copiedSession : Session :=
  (Session.ofText? copiedText "x86" "esp" 0 .ssaDerefs).get (by decide +kernel)

theorem ofText?_copiedText : Session.ofText? copiedText "x86" "esp" 0 .ssaDerefs = some copiedSession :=
  (Option.some_get _).symm

theorem copiedSession_forest : copiedSession.flow.Forest := by
  obtain ⟨l, S, h, hS⟩ := Recovery.exists_course_of_ofText? (by decide) ofText?_copiedText
  have heq : S .ssaDerefs = copiedSession := Option.some.inj ((hS _).symm.trans ofText?_copiedText)
  exact heq ▸ h.derefs.sound.forest

theorem copiedSession_statementsAt :
    copiedSession.flow.statementsAt 1 = [⟨5⟩, ⟨1⟩, ⟨2⟩, ⟨3⟩, ⟨4⟩] := by
  decide +kernel

/-- The register in the address that is read is assigned before it. In the copy of the address in
    the merge at the head of the loop it is not. -/
theorem Session.read_before_assigned : ∃ s c t x d,
    Session.ofText? copiedText "x86" "esp" 0 .ssaDerefs = some s ∧ s.flow.Live c ∧ s.flow.Holds c t ∧
      x ∈ t.preorder ∧ s.flow.linkOf x = .use (some d) ∧ ¬ s.flow.IsInput x ∧
      ∀ w i, s.flow.Assigns w i d → ¬ s.flow.Precedes w c := by
  have hf := copiedSession_forest
  have hstatements := copiedSession_statementsAt
  obtain ⟨hmerge, hcall, hlink, hparent, hblock, hentry, hstatements₀⟩ :
      (copiedSession.flow.operands ⟨5⟩).toOption = some [⟨20⟩, ⟨19⟩, ⟨18⟩, ⟨15⟩, ⟨14⟩, ⟨17⟩, ⟨16⟩] ∧
      (copiedSession.flow.operands ⟨1⟩).toOption = some [⟨1⟩, ⟨3⟩, ⟨2⟩] ∧
      copiedSession.flow.linkOf ⟨19⟩ = .use (some ⟨1⟩) ∧
      (copiedSession.flow.parentExpr? ⟨19⟩).toOption = some (some (.deref ⟨19⟩ (some 2))) ∧
      (copiedSession.flow.block? 0).map Block.successors = some [1] ∧ copiedSession.flow.entry = 0 ∧
      copiedSession.flow.statementsAt 0 = [⟨0⟩] := by
    decide +kernel
  obtain ⟨t, hlive, ht, hx⟩ := hf.exists_holds_of_operands (a := 1) (by simp [hstatements]) hmerge
    (show ⟨19⟩ ∈ _ by simp)
  obtain ⟨t₁, -, ht₁, hd⟩ := hf.exists_holds_of_operands (a := 1) (by simp [hstatements]) hcall
    (show ⟨1⟩ ∈ _ by simp)
  refine ⟨copiedSession, ⟨5⟩, t, ⟨19⟩, ⟨1⟩, ofText?_copiedText, hlive, ht, hx, hlink, ?_,
    fun w i hassigns hprecedes => ?_⟩
  · rintro ⟨inputs, hinput⟩
    rw [hinput] at hparent
    cases hparent
  · -- the way that comes to the loop for the first time
    obtain ⟨t', ht', hd'⟩ := hassigns.exists_mem hf
    obtain rfl := ht₁.statement_unique ht' hd hd'
    obtain ⟨b, hb, hsuccessors⟩ := Option.map_eq_some_iff.1 hblock
    have hpath : copiedSession.flow.Path ([] ++ [0]) 1 := .step (hentry ▸ .entry) hb (by simp [hsuccessors])
    have hsplit : copiedSession.flow.statementsAt 1 = [] ++ ⟨5⟩ :: [⟨1⟩, ⟨2⟩, ⟨3⟩, ⟨4⟩] := hstatements
    have h := hprecedes _ (hpath.walk hsplit)
    simp [hstatements₀] at h

/-- The register in the address that is read in the loop is assigned before. -/
theorem Session.assigned_before_read_copied : ∃ s t w i,
    Session.ofText? copiedText "x86" "esp" 0 .ssaDerefs = some s ∧ s.flow.Live ⟨2⟩ ∧ s.flow.Holds ⟨2⟩ t ∧
      ⟨6⟩ ∈ t.preorder ∧ s.flow.linkOf ⟨6⟩ = .use (some ⟨1⟩) ∧ ¬ s.flow.IsInput ⟨6⟩ ∧
      s.flow.Assigns w i ⟨1⟩ ∧ (s.flow.Precedes w ⟨2⟩ ∨ s.flow.isMerge ⟨2⟩ = true ∧ s.flow.ComesAfter w ⟨2⟩) := by
  obtain ⟨hread, hlink, hparent⟩ :
      (copiedSession.flow.operands ⟨2⟩).toOption = some [⟨5⟩, ⟨7⟩, ⟨6⟩] ∧
      copiedSession.flow.linkOf ⟨6⟩ = .use (some ⟨1⟩) ∧
      (copiedSession.flow.parentExpr? ⟨6⟩).toOption = some (some (.deref ⟨6⟩ (some 2))) := by
    decide +kernel
  obtain ⟨t, hlive, ht, hx⟩ := copiedSession_forest.exists_holds_of_operands (a := 1)
    (by simp [copiedSession_statementsAt]) hread (show ⟨6⟩ ∈ _ by simp)
  have hinput : ¬ copiedSession.flow.IsInput ⟨6⟩ := by
    rintro ⟨inputs, hinput⟩
    rw [hinput] at hparent
    cases hparent
  obtain ⟨l, hl, hs⟩ := Session.exists_parse_of_ofText? ofText?_copiedText
  obtain ⟨w, i, hassigns, hbefore⟩ := Session.assigned_before_read hl hs hlive ht hx hlink hinput
  exact ⟨copiedSession, t, w, i, ofText?_copiedText, hlive, ht, hx, hlink, hinput, hassigns, hbefore⟩

end FrameRecovery
