import FrameRecovery.Proofs.Inlining
import FrameRecovery.Proofs.Precedence
import FrameRecovery.Proofs.RegisterValues

namespace FrameRecovery

open Flow

theorem Machine.isStackPointer_eq_of_head_eq {m : Machine} {t t' : Term} (h : t'.expr.head = t.expr.head) :
    m.isStackPointer t' = m.isStackPointer t := by
  obtain ⟨i, e⟩ := t
  obtain ⟨i', e'⟩ := t'
  cases e <;> cases e' <;> simp_all [Expr.head, Expr.map, isStackPointer, Term.register?]

namespace Flow

variable {f g : Flow} {V : Locations} {m : Machine} {s around c : StatementId} {r u d x : NodeId}
  {a v t t' T T' b : Term} {n : String} {k : Option Nat} {ss before between : List StatementId}
  {w : Surroundings} {σ : Store}

/-- Every value that may take the place of a read of the stack pointer is safe to move. -/
def MovesSafely (f : Flow) (m : Machine) : Prop :=
  ∀ s r a v u, f.Live s → f.Holds s (.node r (.assign a v)) → f.linkOf u = .use (some a.id) →
    PropagationPolicy.stackPointer m f a.id v.id u = .ok true → v.Inlineable

/-- No address is taken of a sum or a difference with a dereference in it. -/
def NoSumAddressed (f : Flow) : Prop :=
  ∀ s t, f.Live s → f.Holds s t → t.NoSumAddressed

/-- On every way through two flows the same happens: the statements leave the same state, and each is of the same
    kind in both and has the same outcome. -/
structure SameMeaning (f g : Flow) : Prop where
  walk : ∀ ss c, g.Walk ss c ↔ f.Walk ss c
  run : ∀ w σ ss c, f.Walk ss c → g.run w σ ss = f.run w σ ss
  outcome : ∀ w σ ss c, f.Walk ss c → ∃ t t', f.Holds c t ∧ g.Holds c t' ∧ t'.expr.head = t.expr.head ∧
    t'.outcome (g.context w (g.run w σ ss)) = t.outcome (f.context w (f.run w σ ss)) ∧
    g.execute w (g.run w σ ss) c = f.execute w (f.run w σ ss) c

/-- A flow in which the versions of registers can be read off the statements: each version is set by one statement,
    and that precedes whatever reads the version, merges apart. -/
structure Settled (f : Flow) (m : Machine) : Prop where
  ordered : f.Ordered
  regular : ∀ s t, f.Live s → f.Holds s t → t.count Expr.isTheta = 0 → t.IsRegular
  inputs : ∀ s t i xs, f.Live s → f.Holds s t → Term.Within (.node i (.theta xs)) t →
    ∀ x ∈ xs, ∃ D, f.linkOf x.id = .use D
  unique : ∀ c c' n k d d', f.Live c → f.Live c' → f.Sets c n k d → f.Sets c' n k d' → c = c'
  before : ∀ s t, f.Live s → f.Holds s t → t.count Expr.isTheta = 0 → ∀ x ∈ t.reads, ∀ c d, f.Live c →
    f.Sets c x.1 x.2 d → f.Precedes c s
  safely : f.MovesSafely m

theorem Holds.sets_iff_target? (h : f.Holds s t) : f.Sets s n k d ↔ t.target? = some (d, .register n k) := by
  rw [h.sets_iff]
  constructor
  · rintro ⟨i, y, rfl⟩
    rfl
  · intro heq
    obtain ⟨i, e⟩ := t
    cases e with
    | assign x y =>
      obtain ⟨j, e⟩ := x
      obtain ⟨rfl, hhead⟩ : j = d ∧ e.head = .register n k := by simpa [Term.target?] using heq
      obtain rfl := Expr.eq_register_of_head_eq hhead
      exact ⟨i, y, rfl⟩
    | _ => cases heq

/-- What a statement sets is in the statement. -/
theorem Sets.exists_mem (h : f.Sets c n k d) (hf : f.Forest) (hc : f.Live c) : ∃ t, f.Holds c t ∧ d ∈ t.preorder := by
  obtain ⟨t, ht⟩ := hf.holds_of_live hc
  obtain ⟨i, y, rfl⟩ := ht.sets_iff.1 h
  exact ⟨_, ht, by simp [Expr.children]⟩

theorem Holds.sources_eq {i : NodeId} {xs : List Term} (h : f.Holds s t) (hwithin : Term.Within (.node i (.theta xs)) t) :
    f.sources i = xs.map fun x => f.linkOf x.id := by
  obtain ⟨q, hq⟩ := h.stands.exists_of_within hwithin
  have hexpr : f.exprAt i = some (.theta (xs.map Term.id)) := exprAt_eq_some hq.shape_id
  unfold sources
  rw [hexpr]
  exact List.map_map ..

/-- The operands of a merge, each one with its link. -/
theorem Holds.zip_sources {i : NodeId} {xs : List Term} (h : f.Holds s t)
    (hwithin : Term.Within (.node i (.theta xs)) t) (value : Term → Word) :
    (f.sources i).zip (xs.map value) = xs.map fun x => (f.linkOf x.id, value x) := by
  rw [h.sources_eq hwithin, List.zip_map']

theorem Forest.live_of_walk (hf : f.Forest) (h : f.Walk ss s) : f.Live s ∧ ∀ c ∈ ss, f.Live c := by
  obtain ⟨as, a, pre, post, -, hsplit, rfl⟩ := h
  refine ⟨hf.live (a := a) (by simp [hsplit]), fun c hc => ?_⟩
  obtain hc | hc := List.mem_append.1 hc
  · obtain ⟨b, -, hc⟩ := List.mem_flatMap.1 hc
    exact hf.live hc
  · exact hf.live (a := a) (by simp [hsplit, hc])

namespace Move

variable (h : Move V f g s around r u a v T T') (hpointer : m.isStackPointer a = true)
include h hpointer

/-- A register with its value put in the place of one of its reads. -/
theorem exists_change : ∃ n k b T₁, a.expr = .register n k ∧ b.form = v.form ∧
    Term.Somewhere (fun w w' => w = .node u (.register n k) ∧ w' = b) T T₁ ∧ T₁.Rewrites T' := by
  obtain ⟨b, T₁, hform, hchange, hrewrites⟩ := h.inlined.change
  have ha : Term.Within a (.node r (.assign a v)) := .of_mem_children (by simp [Expr.children])
  obtain ⟨q, hq⟩ := h.source.stands.exists_of_within ha
  obtain ⟨n, k, hexpr⟩ : ∃ n k, a.expr = .register n k := by
    obtain ⟨i, e⟩ := a
    cases e <;> simp [Machine.isStackPointer, Term.register?] at hpointer
    exact ⟨_, _, rfl⟩
  have haexpr := exprAt_eq_some hq.shape_id
  rw [hexpr] at haexpr
  have huexpr := h.sound.register u a.id n k h.link haexpr
  refine ⟨n, k, b, T₁, hexpr, hform, hchange.mono_within ?_, hrewrites⟩
  rintro _ _ hwithin ⟨⟨n', k', rfl⟩, rfl⟩
  obtain ⟨q', hq'⟩ := h.holds.stands.exists_of_within hwithin
  have huexpr' := exprAt_eq_some hq'.shape_id
  rw [Term.id_node, huexpr] at huexpr'
  cases huexpr'
  exact ⟨rfl, rfl⟩

omit hpointer in
/-- What is read is not what is assigned to. -/
theorem target_ne {x y : Term} (hexpr : T.expr = .assign x y) : x.id ≠ u := by
  rintro rfl
  have hT := exprAt_eq_some h.holds.stands.shape_id
  rw [hexpr] at hT
  exact (h.sound.typed.target _ _ _ hT).2 _ h.link

omit hpointer in
theorem linkOf_eq {x : NodeId} {D : Option NodeId} (hx : f.linkOf x = .use D) (hne : x ≠ u) : g.linkOf x = .use D := by
  refine h.substituted.reads x D hne ?_ hx
  -- a read is no definition
  rintro rfl
  have hdefinition := Link.eq_definition_of_mem_uses ((h.sound.mirrored.recorded x u).1 hx)
  rw [h.link] at hdefinition
  cases hdefinition

section Tree

variable (hregular : T.IsRegular) (hv : v.Inlineable)
include hregular hv

theorem rephrases : T.Rephrases v.cells T' := by
  obtain ⟨n, k, b, T₁, -, hform, hchange, hrewrites⟩ := h.exists_change hpointer
  obtain ⟨hb, hcells, -⟩ := hv.of_form hform
  have hrephrases := (Term.harmless_inline hb).rephrases hchange hregular ?_
  · rw [hcells] at hrephrases
    exact hrephrases.trans (hrewrites.rephrases hrephrases.regular)
  · rintro x y x' hexpr ⟨rfl, -⟩
    exact h.target_ne hexpr rfl

/-- The same comes of the statement if the register has the value that is moved. -/
theorem outcome_eq {C : Context} (hvalue : ∀ n k (b : Term), a.expr = .register n k → b.form = v.form →
    (b.outcome C).value = C.store.register n k) : T'.outcome C = T.outcome C := by
  obtain ⟨n, k, b, T₁, ha, hform, hchange, hrewrites⟩ := h.exists_change hpointer
  obtain ⟨hb, -⟩ := hv.of_form hform
  have hrephrases := (Term.harmless_inline hb).rephrases hchange hregular ?_
  · rw [hrewrites.outcome_eq hrephrases.regular]
    exact (Term.harmless_inline hb).outcome_eq_of_isRegular (Term.keepsValue_inline hb (hvalue n k b ha hform))
      hchange hregular
  · rintro x y x' hexpr ⟨rfl, -⟩
    exact h.target_ne hexpr rfl

end Tree

section Walk

variable (hf : f.Settled m) (hv : v.Inlineable)
include hf hv

omit hpointer in
/-- When a read of the register is executed, its value can still be computed. -/
theorem value_eq {n : String} {k : Option Nat} (hwalk : f.Walk ss around) (ha : a.expr = .register n k)
    (hform : b.form = v.form) : (b.outcome (f.context w (f.run w σ ss))).value = (f.run w σ ss).register n k := by
  have hforest := h.sound.forest
  have hprecedes := h.precedes hf.ordered
  obtain ⟨before, between, rfl, hlast⟩ := hprecedes.exists_last hwalk
  have hlive := (hforest.live_of_walk hwalk).2
  obtain ⟨d, e⟩ := a
  obtain rfl : e = .register n k := ha
  have hsets : f.Sets s n k d := h.source.sets_iff.2 ⟨r, v, rfl⟩
  -- the register is not assigned again
  have hregister : (f.run w σ (before ++ s :: between)).register n k = (v.outcome (f.context w (f.run w σ before))).value := by
    rw [run_append, run_cons, register_run_of_not_sets, register_execute_of_holds h.source]
    intro c hc d' hsets'
    have heq := hf.unique c s n k d' d (hlive c (by simp [hc])) h.live hsets' hsets
    exact hlast (heq ▸ hc)
  -- and no register that the value is computed from is
  have hcells : ∀ x ∈ v.cells, (f.run w σ (before ++ s :: between)).register x.1 x.2 =
      (f.run w σ before).register x.1 x.2 := by
    intro x hx
    rw [run_append]
    refine register_run_of_not_sets fun c hc d' hsets' => ?_
    have hcs := hf.before s _ h.live h.source h.source_apart x (by simp [Term.reads, hx]) c d' (hlive c (by simp_all))
      hsets'
    exact hcs.not_mem_between hprecedes hforest hwalk hlast hc
  obtain ⟨-, -, houtcome⟩ := hv.of_form hform
  rw [hregister, houtcome (f.context w (f.run w σ before)) _ hcells]

theorem outcome_eq_of_walk (hwalk : f.Walk ss c) (ht : f.Holds c t) (ht' : g.Holds c t') :
    t'.expr.head = t.expr.head ∧ t'.target? = t.target? ∧
      t'.outcome (g.context w (f.run w σ ss)) = t.outcome (f.context w (f.run w σ ss)) := by
  have hlive := (h.sound.forest.live_of_walk hwalk).1
  by_cases hc : c = around
  · subst hc
    obtain rfl := ht.unique h.holds
    obtain rfl := ht'.unique h.inlined.holds
    have hregular := hf.regular c t hlive ht h.apart
    have hrephrases := h.rephrases hpointer hregular hv
    refine ⟨hrephrases.head, hrephrases.target, ?_⟩
    -- there is no merge that the flow would matter to
    have hcongr : t'.outcome (g.context w (f.run w σ ss)) = t'.outcome (f.context w (f.run w σ ss)) := by
      refine Term.outcome_congr (C := f.context w (f.run w σ ss)) fun i xs hwithin => ?_
      cases Term.count_eq_zero_iff.1 h.apart' _ hwithin
    rw [hcongr]
    exact h.outcome_eq hpointer hregular hv fun n k b ha hform => h.value_eq hf hv hwalk ha hform
  · have ht₀ := h.holds_other hlive hc ht'
    obtain rfl := ht.unique ht₀
    refine ⟨rfl, rfl, Term.outcome_congr (C := f.context w (f.run w σ ss)) fun i xs hwithin => ?_⟩
    change g.sources i = f.sources i
    rw [ht.sources_eq hwithin, ht'.sources_eq hwithin]
    refine List.map_congr_left fun x hx => ?_
    obtain ⟨D, hD⟩ := hf.inputs c t i xs hlive ht hwithin x hx
    rw [hD, h.linkOf_eq hD]
    rintro rfl
    exact hc (ht.statement_unique h.holds (hwithin.id_mem_of_mem_children hx) h.mem)

theorem execute_eq (hwalk : f.Walk ss c) :
    g.execute w (f.run w σ ss) c = f.execute w (f.run w σ ss) c := by
  obtain ⟨t, ht⟩ := h.sound.forest.exists_holds_of_walk hwalk
  obtain ⟨t', ht', -⟩ := h.evolves.tree c t ht
  obtain ⟨-, htarget, houtcome⟩ := h.outcome_eq_of_walk (w := w) (σ := σ) hpointer hf hv hwalk ht ht'
  rw [ht.execute_eq, ht'.execute_eq, houtcome, Store.after_congr htarget]

theorem run_eq (hwalk : f.Walk ss c) : g.run w σ ss = f.run w σ ss := by
  induction ss using List.reverseRecOn generalizing c with
  | nil => rfl
  | append_singleton ss c' ih =>
    have hwalk : f.Walk (ss ++ c' :: []) c := hwalk
    have hwalk' := h.sound.forest.walk_before hwalk
    rw [run_concat, run_concat, ih hwalk', h.execute_eq hpointer hf hv hwalk']

/-- Moving a value that is safe to move changes nothing. -/
theorem sameMeaning : f.SameMeaning g := by
  refine ⟨fun ss c => h.walk_iff, fun w σ ss c => h.run_eq hpointer hf hv, fun w σ ss c hwalk => ?_⟩
  obtain ⟨t, ht⟩ := h.sound.forest.exists_holds_of_walk hwalk
  obtain ⟨t', ht', -⟩ := h.evolves.tree c t ht
  obtain ⟨hhead, -, houtcome⟩ := h.outcome_eq_of_walk (w := w) (σ := σ) hpointer hf hv hwalk ht ht'
  rw [h.run_eq hpointer hf hv hwalk]
  exact ⟨t, t', ht, ht', hhead, houtcome, h.execute_eq hpointer hf hv hwalk⟩

section Settled

omit hv in
theorem inlineable : v.Inlineable :=
  hf.safely s r a v u h.live h.source h.link <|
    (PropagationPolicy.stackPointer_eq_true_iff h.source h.holds h.mem).2
      ⟨hpointer, h.holds.not_isInput h.apart h.mem, h.replaceable⟩

theorem target?_eq (hc : f.Live c) (ht : f.Holds c t) (ht' : g.Holds c t') : t'.target? = t.target? := by
  by_cases hne : c = around
  · subst hne
    obtain rfl := ht.unique h.holds
    obtain rfl := ht'.unique h.inlined.holds
    exact (h.rephrases hpointer (hf.regular c t hc ht h.apart) hv).target
  · obtain rfl := ht.unique (h.holds_other hc hne ht')
    rfl

theorem sets_iff (hc : f.Live c) : g.Sets c n k d ↔ f.Sets c n k d := by
  obtain ⟨t, ht⟩ := h.sound.forest.holds_of_live hc
  obtain ⟨t', ht', -⟩ := h.evolves.tree c t ht
  rw [ht.sets_iff_target?, ht'.sets_iff_target?, h.target?_eq hpointer hf hv hc ht ht']

omit hpointer hf hv in
/-- What reads a definition and is no operand of a merge has the link of something that did so before. -/
theorem exists_read (hx : g.linkOf x = .use (some d)) (hinput : ¬ g.IsInput x) :
    ∃ y c t, f.Holds c t ∧ y ∈ t.preorder ∧ f.linkOf y = .use (some d) ∧ ¬ f.IsInput y := by
  obtain ⟨c, t, ht, hmem, hlink, hiff⟩ | ⟨y, hy, hlink⟩ := h.read_cases hx
  · exact ⟨x, c, t, ht, hmem, hlink, fun hi => hinput (hiff.2 hi)⟩
  · have hv : Term.Within v (.node r (.assign a v)) := .of_mem_children (by simp [Expr.children])
    have hy := hv.preorder_subset hy
    exact ⟨y, s, _, h.source, hy, hlink, h.source.not_isInput h.source_apart hy⟩

theorem movesSafely : g.MovesSafely m := by
  intro c i X Y x hc ht hlink happroved
  obtain ⟨c', t', -, ht', hmem⟩ := h.substituted.sound.held x (by simp [hlink])
  obtain ⟨hX, hinput, hY⟩ := (PropagationPolicy.stackPointer_eq_true_iff ht ht' hmem).1 happroved
  obtain ⟨y, c₀, t₀, ht₀, hy, hylink, hyinput⟩ := h.exists_read hlink hinput
  have hsafely : ∀ {j X₀ Y₀}, f.Holds c (.node j (.assign X₀ Y₀)) → X₀.id = X.id → m.isStackPointer X₀ = true →
      Y₀.isReplaceable = true → Y₀.Inlineable := by
    intro j X₀ Y₀ hholds hid hpointer hreplaceable
    refine hf.safely c j X₀ Y₀ y (h.live_iff.1 hc) hholds (hid ▸ hylink) ?_
    exact (PropagationPolicy.stackPointer_eq_true_iff hholds ht₀ hy).2 ⟨hpointer, hyinput, hreplaceable⟩
  by_cases hne : c = around
  · subst hne
    obtain rfl := ht.unique h.inlined.holds
    have hrephrases := h.rephrases hpointer (hf.regular c T h.live_around h.holds h.apart) hv
    obtain ⟨X₀, Y₀, hexpr, hreplaceable, hinlineable⟩ := hrephrases.value X Y rfl
    obtain ⟨j, e⟩ := T
    obtain rfl : e = .assign X₀ Y₀ := hexpr
    obtain ⟨hid, hhead⟩ : X.id = X₀.id ∧ X.expr.head = X₀.expr.head := by
      simpa [Term.target?] using hrephrases.target
    rw [Term.inlineable_iff, hinlineable, ← Term.inlineable_iff]
    exact hsafely h.holds hid.symm (Machine.isStackPointer_eq_of_head_eq hhead ▸ hX) (hreplaceable ▸ hY)
  · exact hsafely (h.holds_other (h.live_iff.1 hc) hne ht) rfl hX hY

theorem settled : g.Settled m := by
  have hregular := hf.regular around T h.live_around h.holds h.apart
  have hrephrases := h.rephrases hpointer hregular hv
  have hprecedes : ∀ {c c'}, f.Precedes c c' → g.Precedes c c' :=
    fun hcc ss hwalk => hcc ss (h.walk_iff.1 hwalk)
  refine ⟨h.ordered hf.ordered, fun c t hc ht hcount => ?_, fun c t i xs hc ht hwithin x hx => ?_,
    fun c c' n k d d' hc hc' hsets hsets' => ?_, fun c t hc ht hcount x hx c' d hc' hsets => ?_, ?_⟩
  · by_cases hne : c = around
    · subst hne
      obtain rfl := ht.unique h.inlined.holds
      exact hrephrases.regular
    · exact hf.regular c t (h.live_iff.1 hc) (h.holds_other (h.live_iff.1 hc) hne ht) hcount
  · have hne : c ≠ around := by
      rintro rfl
      obtain rfl := ht.unique h.inlined.holds
      cases Term.count_eq_zero_iff.1 h.apart' _ hwithin
    have ht₀ := h.holds_other (h.live_iff.1 hc) hne ht
    obtain ⟨D, hD⟩ := hf.inputs c t i xs (h.live_iff.1 hc) ht₀ hwithin x hx
    refine ⟨D, h.linkOf_eq hD ?_⟩
    rintro rfl
    exact hne (ht₀.statement_unique h.holds (hwithin.id_mem_of_mem_children hx) h.mem)
  · exact hf.unique c c' n k d d' (h.live_iff.1 hc) (h.live_iff.1 hc')
      ((h.sets_iff hpointer hf hv (h.live_iff.1 hc)).1 hsets) ((h.sets_iff hpointer hf hv (h.live_iff.1 hc')).1 hsets')
  · have hsets := (h.sets_iff hpointer hf hv (h.live_iff.1 hc')).1 hsets
    by_cases hne : c = around
    · subst hne
      obtain rfl := ht.unique h.inlined.holds
      obtain hx | hx := List.mem_append.1 (hrephrases.reads hx)
      · exact hprecedes (hf.before c T h.live_around h.holds h.apart x hx c' d (h.live_iff.1 hc') hsets)
      · have hcs := hf.before s _ h.live h.source h.source_apart x (by simp [Term.reads, hx]) c' d (h.live_iff.1 hc') hsets
        exact hprecedes (hcs.trans (h.precedes hf.ordered) h.sound.forest)
    · exact hprecedes (hf.before c t (h.live_iff.1 hc) (h.holds_other (h.live_iff.1 hc) hne ht) hcount x hx c' d
        (h.live_iff.1 hc') hsets)
  · exact h.movesSafely hpointer hf hv

end Settled

end Walk

end Move

namespace SameMeaning

theorem refl (hf : f.Forest) : f.SameMeaning f := by
  refine ⟨fun _ _ => .rfl, fun _ _ _ _ _ => rfl, fun w σ ss c hwalk => ?_⟩
  obtain ⟨t, ht⟩ := hf.exists_holds_of_walk hwalk
  exact ⟨t, t, ht, ht, rfl, rfl, rfl⟩

theorem trans {h : Flow} (hfg : f.SameMeaning g) (hgh : g.SameMeaning h) : f.SameMeaning h := by
  refine ⟨fun ss c => (hgh.walk ss c).trans (hfg.walk ss c), fun w σ ss c hwalk => ?_, fun w σ ss c hwalk => ?_⟩
  · exact (hgh.run w σ ss c ((hfg.walk ss c).2 hwalk)).trans (hfg.run w σ ss c hwalk)
  · obtain ⟨t, t', ht, ht', hhead, houtcome, hexecute⟩ := hfg.outcome w σ ss c hwalk
    obtain ⟨t₁, t'', ht₁, ht'', hhead', houtcome', hexecute'⟩ := hgh.outcome w σ ss c ((hfg.walk ss c).2 hwalk)
    obtain rfl := ht'.unique ht₁
    exact ⟨t, t'', ht, ht'', hhead'.trans hhead, houtcome'.trans houtcome, hexecute'.trans hexecute⟩

end SameMeaning

end Flow

namespace Tagging

variable {f g : Flow} {V : Locations} {m : Machine} {s c : StatementId} {t : Term} {d d' : NodeId} {n : String}
  {k : Option Nat} {v : Nat}

section Tagged

variable (ht : Tagged V f .registers g) (hf : f.Plain)
include ht hf

/-- What is defined is a version of a register. -/
theorem Tagged.exists_defines {us : List NodeId} (hd : g.linkOf d = .definition us) :
    ∃ n v, g.Defines .registers n d v := by
  obtain ⟨versions, key, hnumbered⟩ := ht.numbered
  obtain ⟨us', hus'⟩ | ⟨n, hn⟩ := hnumbered.keyed d us hd
  · rw [hf.unlinked] at hus'
    cases hus'
  · obtain ⟨v, hdefines, -⟩ := hnumbered.defines d n hn
    exact ⟨n, v, hdefines⟩

/-- A version of a register is defined once. -/
theorem Tagged.eq_of_defines (hd : g.Defines .registers n d v) (hd' : g.Defines .registers n d' v) : d = d' := by
  obtain ⟨versions, key, hnumbered⟩ := ht.numbered
  have hkey : ∀ {d}, g.Defines .registers n d v → key d = some n := by
    rintro d ⟨-, ⟨e, he, rfl⟩, us, hus⟩
    obtain ⟨us', hus'⟩ | ⟨l, hl⟩ := hnumbered.keyed d us hus
    · rw [hf.unlinked] at hus'
      cases hus'
    · obtain ⟨-, -, -, w, hw⟩ := hnumbered.defines d l hl
      rw [he] at hw
      cases hw
      exact hl
  exact hnumbered.unique d d' n v (hkey hd) (hkey hd') hd hd'

variable (hconnected : f.Connected)
include hconnected

/-- Whatever sets a version of a register is the definition of it. -/
theorem Tagged.defines_of_sets (hc : g.Live c) (hsets : g.Sets c n k d) :
    ∃ v, k = some v ∧ g.Defines .registers n d v := by
  obtain ⟨t, hholds⟩ := ht.sound.forest.holds_of_live hc
  obtain ⟨i, y, rfl⟩ := hholds.sets_iff.1 hsets
  obtain ⟨hshape, -, hbelow⟩ := hholds.stands
  have hd : g.exprAt d = some (.register n k) :=
    exprAt_eq_some (hbelow (.node d (.register n k)) (by simp [Expr.children])).shape_id
  have hversion : ∀ {l v}, g.Defines .registers l d v → k = some v ∧ g.Defines .registers n d v := by
    rintro l v ⟨hv, ⟨e, he, rfl⟩, hlink⟩
    rw [hd] at he
    cases he
    exact ⟨rfl, hv, ⟨_, hd, rfl⟩, hlink⟩
  obtain ⟨a, heads, hexact, hhead | hbefore⟩ := ht.exists_place hf.forest hconnected hc
  · obtain ⟨-, l, d', points, hjoins⟩ := hexact.head c hhead
    obtain ⟨st, y', inputs, v, hst, hroot, -, hdefines, -⟩ := hjoins.merges
    obtain ⟨st', hst', hroot', -⟩ := id hholds
    obtain rfl := Option.some.inj (hst.symm.trans hst')
    rw [hroot', Term.id_node, exprAt_eq_some hshape] at hroot
    cases hroot
    exact ⟨v, hversion hdefines⟩
  · obtain ⟨t, hholds₀⟩ := hf.forest.exists_holds hbefore
    have hassigned := (assigned?_of_later ht.later hf hholds₀).2
    rw [hholds.assigned?_eq_some.2 ⟨i, k, y, rfl⟩] at hassigned
    obtain ⟨D, hD, heq⟩ := Option.map_eq_some_iff.1 hassigned.symm
    obtain ⟨rfl, rfl⟩ := Prod.mk.inj heq
    obtain ⟨v, hdefines⟩ := ht.defined c (hf.forest.mem_liveStatements.2 (hf.forest.live hbefore)) D hD
    exact ⟨v, hversion hdefines⟩

/-- A version of a register is set by one statement. -/
theorem Tagged.eq_of_sets {c' : StatementId} (hc : g.Live c) (hc' : g.Live c') (hset : g.Sets c n k d)
    (hset' : g.Sets c' n k d') : c = c' := by
  obtain ⟨v, rfl, hd⟩ := ht.defines_of_sets hf hconnected hc hset
  obtain ⟨v', heqv, hd'⟩ := ht.defines_of_sets hf hconnected hc' hset'
  cases heqv
  obtain rfl := ht.eq_of_defines hf hd hd'
  obtain ⟨t, hholds, hmem⟩ := hset.exists_mem ht.sound.forest hc
  obtain ⟨t', hholds', hmem'⟩ := hset'.exists_mem ht.sound.forest hc'
  exact hholds.statement_unique hholds' hmem hmem'

/-- A register that is not only assigned to is linked as a read. -/
theorem Tagged.exists_reads (hs : g.Live s) (hholds : g.Holds s t) {x : String × Option Nat} (hx : x ∈ t.reads) :
    ∃ z ∈ t.preorder, ∃ D, g.exprAt z = some (.register x.1 x.2) ∧ g.Reads .registers x.1 z D := by
  obtain ⟨z, hz, htarget⟩ := Term.exists_within_of_mem_reads hx hholds.nodup
  have hmem : z ∈ t.preorder := hz.preorder_subset (by simp)
  obtain ⟨q, hq⟩ := hholds.stands.exists_of_within hz
  have hexpr := exprAt_eq_some hq.shape_id
  obtain ⟨i, -, hassigns, -⟩ | ⟨D, hreads⟩ := ht.register_cases hf hconnected hs hholds hmem hexpr
  · -- what is assigned to stays where it is
    obtain ⟨A, B, hT, hA⟩ := hassigns.exists_holds ht.sound.forest
    obtain rfl := hholds.unique hT
    exact absurd hA (htarget A B rfl)
  · exact ⟨z, hmem, D, hexpr, hreads⟩

/-- What sets the version that is read outside of merges precedes the read. -/
theorem Tagged.precedes_of_reads (hs : g.Live s) (hholds : g.Holds s t) (hcount : t.count Expr.isTheta = 0)
    {z : NodeId} (hz : z ∈ t.preorder) (hexpr : g.exprAt z = some (.register n k)) {D : Option NodeId}
    (hreads : g.Reads .registers n z D) (hc : g.Live c) (hset : g.Sets c n k d) : g.Precedes c s := by
  obtain ⟨v, ⟨e, he, rfl⟩, hlink, hD⟩ := hreads
  rw [hexpr] at he
  obtain ⟨v', hv', hd⟩ := ht.defines_of_sets hf hconnected hc hset
  obtain ⟨-, hv⟩ := Expr.register.inj (Option.some.inj he)
  obtain rfl : v' = v := Option.some.inj (hv'.symm.trans hv)
  cases D with
  | none =>
    -- the version on entry is never set
    obtain rfl : v' = 0 := hD
    exact absurd hd.1 (by decide)
  | some d₀ =>
    obtain rfl := ht.eq_of_defines hf hd hD
    obtain ⟨w, i, hassigns, hprecedes⟩ :=
      ((Ordered.of_tagged ht hf hconnected).reads s t z d hs hholds hz hlink).resolve_left
        (hholds.not_isInput hcount hz)
    obtain ⟨t₁, hholds₁, hmem₁⟩ := hassigns.exists_mem ht.sound.forest
    obtain ⟨t₂, hholds₂, hmem₂⟩ := hset.exists_mem ht.sound.forest hc
    exact hholds₁.statement_unique hholds₂ hmem₁ hmem₂ ▸ hprecedes

/-- The operands of merges are linked as reads. -/
theorem Tagged.exists_link_of_input (hs : g.Live s) (hholds : g.Holds s t) {i : NodeId} {xs : List Term}
    (hwithin : Term.Within (.node i (.theta xs)) t) {x : Term} (hx : x ∈ xs) : ∃ D, g.linkOf x.id = .use D := by
  obtain ⟨a, heads, hexact, hhead | hbefore⟩ := ht.exists_place hf.forest hconnected hs
  · obtain ⟨-, l, d, points, hjoins⟩ := hexact.head s hhead
    obtain ⟨i', v, j, inputs, hholds', -, -, hall⟩ := Merges.holds hjoins.merges ht.sound.forest
    obtain rfl := hholds.unique hholds'
    obtain ⟨_, _, _, _, heq, -, hregister⟩ := Merges.exists_eq hjoins.merges ht.sound.forest hholds
    cases heq
    obtain heq | ⟨-, w, hexpr⟩ | heq := Term.within_merge hregister hwithin
    · cases heq
    · cases hexpr
    · cases heq
      obtain ⟨p, -, -, -, hlink, -⟩ := (exists_of_forall₂ hall).2 x hx
      exact ⟨_, hlink⟩
  · cases Term.count_eq_zero_iff.1 (ht.count_isTheta_of_mem hf hbefore hholds) _ hwithin

theorem Tagged.isRegular (haddressed : g.NoSumAddressed) (hs : g.Live s) (hholds : g.Holds s t) :
    t.IsRegular := by
  refine ⟨ht.isAction hf hconnected hs hholds, fun x y hexpr => ?_, haddressed s t hs hholds⟩
  have hassign : g.exprAt t.id = some (.assign x.id y.id) := by
    rw [exprAt_eq_some hholds.stands.shape_id, hexpr]
    rfl
  obtain ⟨⟨e, he, hassignable⟩, -⟩ := ht.sound.typed.target _ _ _ hassign
  obtain ⟨i, e'⟩ := t
  obtain rfl : e' = .assign x y := hexpr
  obtain ⟨-, -, hbelow⟩ := hholds.stands
  rw [exprAt_eq_some (hbelow x (by simp [Expr.children])).shape_id, Option.some.injEq] at he
  rw [← he, Expr.isAssignable_map] at hassignable
  exact hassignable

/-- A flow whose registers were tagged is settled. -/
theorem Tagged.settled (haddressed : g.NoSumAddressed) (hsafely : g.MovesSafely m) : g.Settled m := by
  have hordered := Ordered.of_tagged ht hf hconnected
  refine ⟨hordered, fun s t hs hholds _ => ht.isRegular hf hconnected haddressed hs hholds,
    fun s t i xs hs hholds hwithin x hx => ht.exists_link_of_input hf hconnected hs hholds hwithin hx,
    fun c c' n k d d' hc hc' hset hset' => ?_, fun s t hs hholds hcount x hx c d hc hset => ?_, hsafely⟩
  · exact ht.eq_of_sets hf hconnected hc hc' hset hset'
  · obtain ⟨z, hz, D, hexpr, hreads⟩ := ht.exists_reads hf hconnected hs hholds hx
    exact ht.precedes_of_reads hf hconnected hs hholds hcount hz hexpr hreads hc hset

end Tagged

end Tagging

namespace Flow

variable {f g : Flow} {V : Locations} {m : Machine}

/-- Replacing reads, one after the other, keeps the meaning of a settled flow. -/
theorem Settled.steps (hf : f.Settled m) (hforest : f.Forest)
    (h : Relation.ReflTransGen (Propagation.Step (.stackPointer m) V) f g) : g.Settled m ∧ f.SameMeaning g := by
  induction h with
  | refl => exact ⟨hf, .refl hforest⟩
  | tail _ hstep ih =>
    obtain ⟨hsettled, hsame⟩ := ih
    obtain ⟨s, around, r, u, a, v, T, T', hpointer, hmove⟩ := hsettled.ordered.exists_move hstep
    have hv := hmove.inlineable hpointer hsettled
    exact ⟨hmove.settled hpointer hsettled hv, hsame.trans (hmove.sameMeaning hpointer hsettled hv)⟩

/-- Whether a statement gives the stack pointer a value that is safe to move, if it gives it one. -/
def movesSafely (f : Flow) (m : Machine) (s : StatementId) : Bool :=
  match f.statementTerm s with
  | .ok ⟨_, .assign a v⟩ => !m.isStackPointer a || v.isInlineable
  | _ => true

/-- Where no address is taken, none of a sum is. -/
theorem NoSumAddressed.of_nodes (h : f.nodes.all fun n => n.expr.head != .addressOf ()) : f.NoSumAddressed := by
  intro s t _ ht i c hc
  obtain ⟨q, hq⟩ := ht.stands.exists_of_within hc
  obtain ⟨n, hn, hshape⟩ := Option.map_eq_some_iff.1 hq.shape_id
  have hmem := Array.all_eq_true_iff_forall_mem.1 h n (Array.mem_of_getElem? hn)
  rw [(Prod.mk.inj hshape).1] at hmem
  simp [Expr.head, Expr.map] at hmem

end Flow

end FrameRecovery
