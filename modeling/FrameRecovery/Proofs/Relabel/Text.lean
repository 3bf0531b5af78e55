import FrameRecovery.Proofs.Flow.Layout
import FrameRecovery.Proofs.Relabel.Flow

namespace FrameRecovery

/-- A text in which the runs of name characters that stand in front of a version are replaced, given
    the run that was read last. -/
def renameRuns (ρ : String → String) (run : List Char) : List Char → List Char
  | [] => run
  | c :: rest =>
    if Token.continuesName c then renameRuns ρ (run ++ [c]) rest
    else if c = '@' ∧ run ≠ [] then (ρ (String.ofList run)).toList ++ c :: renameRuns ρ [] rest
    else run ++ c :: renameRuns ρ [] rest

section Runs

variable {ρ : String → String} {c : Char} {run xs ys : List Char}

theorem renameRuns_append_break (hc : Breaks c) (run xs ys : List Char) :
    renameRuns ρ run (xs ++ c :: ys) = renameRuns ρ run xs ++ c :: renameRuns ρ [] ys := by
  induction xs generalizing run with
  | nil => simp [renameRuns, hc.1, hc.2]
  | cons x rest ih =>
    rw [List.cons_append, renameRuns, renameRuns]
    split
    · exact ih _
    · split <;> simp [ih]

/-- Without a version nothing is replaced. -/
theorem renameRuns_of_not_mem (hxs : '@' ∉ xs) (run : List Char) : renameRuns ρ run xs = run ++ xs := by
  induction xs generalizing run with
  | nil => simp [renameRuns]
  | cons x rest ih =>
    rw [List.mem_cons, not_or] at hxs
    rw [renameRuns]
    split
    · simp [ih hxs.2]
    · simp [ih hxs.2, Ne.symm hxs.1]

private theorem continuesName_at : Token.continuesName '@' = false := by
  decide

theorem renameRuns_version (hys : '@' ∉ ys) : renameRuns ρ [] ('@' :: ys) = '@' :: ys := by
  simp [renameRuns, continuesName_at, renameRuns_of_not_mem hys]

theorem renameRuns_versioned (hne : xs ≠ []) (hxs : ∀ c ∈ xs, Token.continuesName c = true) (hys : '@' ∉ ys) :
    renameRuns ρ [] (xs ++ '@' :: ys) = (ρ (String.ofList xs)).toList ++ '@' :: ys := by
  have hrun : ∀ run : List Char, run ++ xs ≠ [] → renameRuns ρ run (xs ++ '@' :: ys) =
      (ρ (String.ofList (run ++ xs))).toList ++ '@' :: ys := by
    clear hne
    induction xs with
    | nil =>
      intro run hrun
      simp_all [renameRuns, continuesName_at, renameRuns_of_not_mem]
    | cons x rest ih =>
      intro run _
      rw [List.cons_append, renameRuns, if_pos (hxs x (by simp)), ih fun c hc => hxs c (by simp [hc])]
      · simp
      · simp
  exact hrun [] hne

theorem rewords_renameRuns (ρ : String → String) : Rewords (renameRuns ρ []) :=
  ⟨fun _ hxs => renameRuns_of_not_mem hxs [], fun _ xs ys hc _ => renameRuns_append_break hc [] xs ys⟩

end Runs

/-- The text with the names in front of versions replaced. -/
def renameText (ρ : String → String) (s : String) : String :=
  String.ofList (renameRuns ρ [] s.toList)

namespace Term

variable {ρ : String → String} {t : Term}

/-- Every register in a tree has a name and a version, and there is no variable in it. -/
def Versioned (t : Term) : Prop :=
  ∀ u, Within u t → (∀ n v, u.expr = .register n v → IsRegisterName n ∧ v ≠ none) ∧ ∀ n v o, u.expr ≠ .var n v o

theorem Versioned.of_children {i : NodeId} {e : Expr Term} (h : (node i e).Versioned) {c : Term}
    (hc : c ∈ e.children) : c.Versioned :=
  fun u hu => h u (.inside hc hu)

/-- The text of a tree with other names, one character after the other. -/
private def Reads (ρ : String → String) (s s' : String) : Prop :=
  s'.toList = renameRuns ρ [] s.toList

private theorem reads_versionText (v : Option Nat) : renameRuns ρ [] (versionText v).toList = (versionText v).toList := by
  cases v with
  | none => rfl
  | some v =>
    have hlist : (versionText (some v)).toList = '@' :: (decimal v).toList := by simp [versionText]
    rw [hlist, renameRuns_version (not_mem_decimal v)]

private theorem layout_relabel {i : NodeId} {e : Expr Term} (h : (node i e).Versioned)
    (hplain : ∀ c ∈ e.children, Reads ρ c.text (c.relabel ρ).text)
    (hoperand : ∀ c ∈ e.children, Reads ρ c.operandText (c.relabel ρ).operandText) :
    Reads ρ (e.layout text operandText) (((e.map (relabel ρ)).relabel ρ).layout text operandText) := by
  have hR := rewords_renameRuns ρ
  have hrest : e.isAssignable = false → ((e.map (relabel ρ)).relabel ρ) = e.map (relabel ρ) := by
    intro he
    cases e <;> first | rfl | cases he
  unfold Reads at *
  cases e with
  | register n v =>
    obtain ⟨⟨hname, -⟩, hv⟩ := (h _ (.refl _)).1 n v rfl
    obtain ⟨k, rfl⟩ := Option.ne_none_iff_exists'.1 hv
    have hall := hname.continues
    obtain ⟨c, cs, rfl, -, -⟩ := hname
    rw [String.toList_ofList] at hall
    simpa [Expr.map, Expr.relabel, Expr.layout, versionText] using
      (renameRuns_versioned (by simp) hall (not_mem_decimal k)).symm
  | var n v o => exact absurd rfl ((h _ (.refl _)).2 n v o)
  | deref x v =>
    have htext : ∀ a : String, ("[" ++ a ++ "]" ++ versionText v).toList =
        '[' :: (a.toList ++ ']' :: (versionText v).toList) := fun a => by simp
    change ("[" ++ (x.relabel ρ).text ++ "]" ++ versionText v).toList = renameRuns ρ [] ("[" ++ x.text ++ "]" ++ _).toList
    rw [htext, htext, hR.cons (by decide) (by decide), renameRuns_append_break (by decide), reads_versionText,
      hplain x (by simp [Expr.children])]
  | _ =>
    rw [hrest rfl]
    exact hR.layout rfl hplain hoperand

/-- The text of a tree with other names is that of the tree, with the names replaced in front of the versions. -/
theorem text_relabel (h : t.Versioned) : (t.relabel ρ).text = renameText ρ t.text := by
  have hreads : Reads ρ t.text (t.relabel ρ).text := by
    induction t using Term.induction with
    | step i e ih =>
      have hplain : ∀ c ∈ e.children, Reads ρ c.text (c.relabel ρ).text := fun c hc => ih c hc (h.of_children hc)
      rw [relabel_node, text_node, text_node]
      refine layout_relabel h hplain fun c hc => ?_
      have hself := hplain c hc
      have hcompound : (c.relabel ρ).expr.isCompound = c.expr.isCompound := by
        obtain ⟨j, e⟩ := c
        rw [relabel_node]
        cases e <;> rfl
      exact (rewords_renameRuns ρ).operandText hcompound hself
  rw [renameText, ← hreads, String.ofList_toList]

end Term

end FrameRecovery
