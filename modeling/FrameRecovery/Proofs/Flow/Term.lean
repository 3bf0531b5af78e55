import FrameRecovery.Flow.Term
import FrameRecovery.Proofs.Flow.Expr
import Mathlib.Data.List.Nodup
import Mathlib.Data.List.Perm.Basic

namespace FrameRecovery

namespace Term

@[simp] theorem id_node (i : NodeId) (e : Expr Term) : (node i e).id = i := rfl

@[simp] theorem expr_node (i : NodeId) (e : Expr Term) : (node i e).expr = e := rfl

@[simp] theorem preorder_node (i : NodeId) (e : Expr Term) :
    (node i e).preorder = i :: e.children.flatMap preorder := by
  unfold preorder
  rw [fold_node, Expr.children_map, List.flatMap_def]

@[simp] theorem postorder_node (i : NodeId) (e : Expr Term) :
    (node i e).postorder = e.children.flatMap postorder ++ [i] := by
  unfold postorder
  rw [fold_node, Expr.children_map, List.flatMap_def]

theorem id_mem_preorder (t : Term) : t.id ∈ t.preorder := by
  obtain ⟨i, e⟩ := t
  simp

theorem preorder_eq (t : Term) : t.preorder = t.id :: t.preorder.tail := by
  obtain ⟨i, e⟩ := t
  rw [preorder_node, id_node, List.tail_cons]

/-- Both orders list the same nodes equally often. -/
theorem postorder_perm (t : Term) : t.postorder.Perm t.preorder := by
  induction t using Term.induction with
  | step i e ih =>
    rw [postorder_node, preorder_node]
    exact (List.perm_append_singleton i _).trans ((List.Perm.flatMap_left _ ih).cons i)

theorem mem_postorder {t : Term} {x : NodeId} : x ∈ t.postorder ↔ x ∈ t.preorder :=
  t.postorder_perm.mem_iff

/-- The number of nodes on the longest way down a tree. -/
def height (t : Term) : Nat :=
  t.fold fun _ e => e.children.foldr max 0 + 1

@[simp] theorem height_node (i : NodeId) (e : Expr Term) :
    (node i e).height = (e.children.map height).foldr max 0 + 1 := by
  unfold height
  rw [fold_node, Expr.children_map]

theorem height_lt_of_mem_children {i : NodeId} {e : Expr Term} {c : Term} (hc : c ∈ e.children) :
    c.height < (node i e).height := by
  have hle : ∀ ts : List Term, c ∈ ts → c.height ≤ (ts.map height).foldr max 0 := by
    intro ts hts
    induction ts with
    | nil => cases hts
    | cons t rest ih =>
      rcases List.mem_cons.1 hts with rfl | hrest
      · exact Nat.le_max_left _ _
      · exact Nat.le_trans (ih hrest) (Nat.le_max_right _ _)
  have hc := hle _ hc
  rw [height_node]
  omega

/-- A tree occurs in another one, at the top or further down. -/
inductive Within : Term → Term → Prop
  | refl (t : Term) : Within t t
  | inside {u c : Term} {i : NodeId} {e : Expr Term} (hc : c ∈ e.children) (h : Within u c) :
    Within u (node i e)

theorem Within.trans {t u v : Term} (h : Within t u) (h' : Within u v) : Within t v := by
  induction h' with
  | refl => exact h
  | inside hc _ ih => exact .inside hc ih

theorem Within.of_mem_children {i : NodeId} {e : Expr Term} {c : Term} (hc : c ∈ e.children) :
    Within c (node i e) :=
  .inside hc (.refl c)

theorem Within.preorder_subset {u t : Term} (h : Within u t) : u.preorder ⊆ t.preorder := by
  induction h with
  | refl => exact fun _ h => h
  | inside hc _ ih =>
    intro x hx
    rw [preorder_node]
    exact List.mem_cons_of_mem _ (List.mem_flatMap.2 ⟨_, hc, ih hx⟩)

theorem Within.id_mem_of_mem_children {i : NodeId} {e : Expr Term} {c t : Term} (h : Within (node i e) t)
    (hc : c ∈ e.children) : c.id ∈ t.preorder :=
  ((Within.of_mem_children hc).trans h).preorder_subset c.id_mem_preorder

theorem Within.height_le {u t : Term} (h : Within u t) : u.height ≤ t.height := by
  induction h with
  | refl => exact Nat.le_refl _
  | inside hc _ ih => exact Nat.le_trans ih (Nat.le_of_lt (height_lt_of_mem_children hc))

/-- What is below a node of a tree is not the whole tree. -/
theorem Within.ne_of_mem_children {i : NodeId} {e : Expr Term} {c t : Term} (h : Within (node i e) t)
    (hc : c ∈ e.children) : c ≠ t := by
  rintro rfl
  exact absurd h.height_le (Nat.not_le.2 (height_lt_of_mem_children hc))

theorem Within.nodup_preorder {u t : Term} (h : Within u t) (ht : t.preorder.Nodup) :
    u.preorder.Nodup := by
  induction h with
  | refl => exact ht
  | inside hc _ ih =>
    rw [preorder_node, List.nodup_cons, List.nodup_flatMap] at ht
    exact ih (ht.2.1 _ hc)

/-- Only the tree itself has its outermost node. -/
theorem Within.eq_of_id_mem {u t : Term} (h : Within u t) (ht : t.preorder.Nodup)
    (hid : t.id ∈ u.preorder) : u = t := by
  cases h with
  | refl => rfl
  | inside hc h =>
    rw [preorder_node, List.nodup_cons] at ht
    exact absurd (List.mem_flatMap.2 ⟨_, hc, h.preorder_subset hid⟩) ht.1

/-- The tree without the numbers of its nodes. -/
def form (t : Term) : Term :=
  t.fold fun _ e => node ⟨0⟩ e

@[simp] theorem form_node (i : NodeId) (e : Expr Term) : (node i e).form = node ⟨0⟩ (e.map form) := by
  unfold form
  rw [fold_node]

/-- A tree is changed at one place, there or further down, in the way that `R` tells. -/
inductive Somewhere (R : Term → Term → Prop) : Term → Term → Prop
  | here {t t' : Term} (h : R t t') : Somewhere R t t'
  | inside {i : NodeId} {e e' : Expr Term} {before after : List Term} {c c' : Term}
    (hhead : e'.head = e.head) (hold : e.children = before ++ c :: after)
    (hnew : e'.children = before ++ c' :: after) (h : Somewhere R c c') :
    Somewhere R (node i e) (node i e')

theorem Somewhere.mono_within {R S : Term → Term → Prop} {t t' : Term} (h : Somewhere R t t')
    (hRS : ∀ u u', Within u t → R u u' → S u u') : Somewhere S t t' := by
  induction h with
  | here h => exact .here (hRS _ _ (.refl _) h)
  | inside hhead hold hnew _ ih =>
    exact .inside hhead hold hnew (ih fun u u' hu => hRS u u' (.inside (by simp [hold]) hu))

theorem Somewhere.mono {R S : Term → Term → Prop} {t t' : Term} (h : Somewhere R t t')
    (hRS : ∀ u u', R u u' → S u u') : Somewhere S t t' :=
  h.mono_within fun u u' _ => hRS u u'

/-- What is topmost stays so, unless the tree itself makes way. -/
theorem Somewhere.head_eq {R : Term → Term → Prop} {t t' : Term} (h : Somewhere R t t') (hroot : ¬ R t t') :
    t'.expr.head = t.expr.head := by
  cases h with
  | here h => exact absurd h hroot
  | inside hhead _ _ _ => exact hhead

/-- A tree that makes way is not there afterwards. -/
theorem Somewhere.not_mem_preorder {R : Term → Term → Prop} {t t' : Term} {x : NodeId} (h : Somewhere R t t')
    (ht : t.preorder.Nodup) (hR : ∀ u u', R u u' → u.id = x ∧ x ∉ u'.preorder) : x ∈ t.preorder ∧ x ∉ t'.preorder := by
  induction h with
  | here h =>
    obtain ⟨rfl, hnot⟩ := hR _ _ h
    exact ⟨id_mem_preorder _, hnot⟩
  | @inside i e e' before after c c' _ hold hnew _ ih =>
    have hc : Within c (node i e) := .of_mem_children (by simp [hold])
    obtain ⟨hmem, hnot⟩ := ih (hc.nodup_preorder ht)
    refine ⟨hc.preorder_subset hmem, ?_⟩
    rw [preorder_node, hold, List.flatMap_append, List.flatMap_cons, List.nodup_cons, List.nodup_append,
      List.nodup_append] at ht
    rw [preorder_node, hnew, List.flatMap_append, List.flatMap_cons]
    -- the nodes beside the place are other ones
    grind

/-- Every node of a tree is the outermost node of a tree in it. -/
theorem exists_within_of_mem_preorder {t : Term} {x : NodeId} (h : x ∈ t.preorder) :
    ∃ u, Within u t ∧ u.id = x := by
  induction t using Term.induction with
  | step i e ih =>
    rw [preorder_node, List.mem_cons, List.mem_flatMap] at h
    rcases h with rfl | ⟨c, hc, hx⟩
    · exact ⟨_, .refl _, rfl⟩
    · obtain ⟨u, hu, hid⟩ := ih c hc hx
      exact ⟨u, .inside hc hu, hid⟩

end Term

end FrameRecovery
