import FrameRecovery.Proofs.Flow.Paths

namespace FrameRecovery

namespace Flow

variable {f : Flow} {a : Address} {as : List Address} {d e s : StatementId}
  {ss before before' between pre post : List StatementId}

/-- The statements that are executed, in order, on some way from the entry to a statement. -/
def Walk (f : Flow) (ss : List StatementId) (s : StatementId) : Prop :=
  ∃ as a pre post, f.Path as a ∧ f.statementsAt a = pre ++ s :: post ∧
    ss = as.flatMap f.statementsAt ++ pre

/-- On every way to the statement `s` the statement `e` is executed before. -/
def Precedes (f : Flow) (e s : StatementId) : Prop :=
  ∀ ss, f.Walk ss s → e ∈ ss

/-- What is executed on a way is executed for a last time. -/
theorem exists_last_of_mem (h : e ∈ ss) : ∃ before between, ss = before ++ e :: between ∧ e ∉ between := by
  obtain ⟨after, before, heq, hafter⟩ := List.eq_append_cons_of_mem (List.mem_reverse.2 h)
  exact ⟨before.reverse, after.reverse, by simpa using congrArg List.reverse heq, by simpa using hafter⟩

theorem Path.walk (hpath : f.Path as a) (hsplit : f.statementsAt a = pre ++ s :: post) :
    f.Walk (as.flatMap f.statementsAt ++ pre) s :=
  ⟨as, a, pre, post, hpath, hsplit, rfl⟩

namespace Forest

variable (hf : f.Forest)
include hf

/-- A statement stands at one place. -/
theorem split_unique {b : Address} {pre' post' : List StatementId}
    (ha : f.statementsAt a = pre ++ s :: post) (hb : f.statementsAt b = pre' ++ s :: post') :
    a = b ∧ pre = pre' := by
  have hmem : s ∈ f.statementsAt a := by simp [ha]
  have hmem' : s ∈ f.statementsAt b := by simp [hb]
  obtain ⟨st, hst, -, hblock⟩ := hf.mem_statementsAt.1 hmem
  obtain ⟨st', hst', -, hblock'⟩ := hf.mem_statementsAt.1 hmem'
  obtain rfl : st = st' := Option.some.inj (hst.symm.trans hst')
  obtain rfl : a = b := hblock.symm.trans hblock'
  have hnodup := hf.nodup_statementsAt a
  rw [hb, List.nodup_middle, List.nodup_cons, List.mem_append, not_or] at hnodup
  exact ⟨rfl, ((List.append_cons_inj_of_notMem hnodup.1.1 hnodup.1.2).1 (hb.symm.trans ha)).1.symm⟩

/-- Whatever stands in a block on a way leads there with what comes before it, and it does not
    matter how it was reached. -/
private theorem splice_block (hpath : f.Path as a)
    (hblock : f.statementsAt a = pre ++ e :: between ++ post) :
    f.Walk (as.flatMap f.statementsAt ++ pre) e ∧ ∀ before, f.Walk before e → ∃ as', f.Path as' a ∧
      as'.flatMap f.statementsAt ++ (pre ++ e :: between) = before ++ e :: between := by
  rw [List.append_assoc, List.cons_append] at hblock
  refine ⟨hpath.walk hblock, ?_⟩
  rintro before ⟨as', a', pre', post', hpath', hblock', rfl⟩
  obtain ⟨rfl, rfl⟩ := hf.split_unique hblock hblock'
  exact ⟨as', hpath', (List.append_assoc ..).symm⟩

/-- Whatever stands on a way leads there with what comes before it, and it does not matter how it
    was reached. -/
private theorem splice_path (hpath : f.Path as a) (hblock : f.statementsAt a = pre ++ post)
    (hsplit : as.flatMap f.statementsAt ++ pre = before ++ e :: between) :
    f.Walk before e ∧ ∀ before', f.Walk before' e → ∃ as', f.Path as' a ∧
      as'.flatMap f.statementsAt ++ pre = before' ++ e :: between := by
  induction hpath generalizing pre post between with
  | entry =>
    obtain rfl : pre = before ++ e :: between := by simpa using hsplit
    simpa using hf.splice_block .entry hblock
  | @step as c a b hpath hb hc ih =>
    obtain ⟨k, rfl, rfl⟩ | ⟨k, hbefore, hbetween⟩ := List.append_eq_append_iff.1 hsplit
    · exact hf.splice_block (hpath.step hb hc) hblock
    · cases k with
      | nil =>
        obtain rfl : before = (as ++ [c]).flatMap f.statementsAt := by simpa using hbefore.symm
        obtain rfl : e :: between = pre := hbetween
        have hblock : f.statementsAt a = [] ++ e :: between ++ post := hblock
        simpa using hf.splice_block (hpath.step hb hc) hblock
      | cons x k =>
        obtain ⟨rfl, rfl⟩ : e = x ∧ between = k ++ pre := by simpa using hbetween
        rw [List.flatMap_append, List.flatMap_singleton] at hbefore
        obtain ⟨hwalk, hsplice⟩ := ih (List.append_nil _).symm hbefore
        refine ⟨hwalk, fun before' hbefore' => ?_⟩
        obtain ⟨as', hpath', hsplit'⟩ := hsplice before' hbefore'
        refine ⟨as' ++ [c], hpath'.step hb hc, ?_⟩
        rw [List.flatMap_append, List.flatMap_singleton, hsplit', List.append_assoc, List.cons_append]

/-- A way can be followed up to any statement on it. -/
theorem walk_before (h : f.Walk (before ++ e :: between) s) : f.Walk before e := by
  obtain ⟨as, a, pre, post, hpath, hblock, hsplit⟩ := h
  exact (hf.splice_path hpath hblock hsplit.symm).1

/-- Two ways that meet can be joined there. -/
theorem walk_join (h : f.Walk (before ++ e :: between) s) (h' : f.Walk before' e) :
    f.Walk (before' ++ e :: between) s := by
  obtain ⟨as, a, pre, post, hpath, hblock, hsplit⟩ := h
  obtain ⟨as', hpath', hsplit'⟩ := (hf.splice_path hpath hblock hsplit.symm).2 before' h'
  exact ⟨as', a, pre, post, hpath', hblock, hsplit'.symm⟩

end Forest

namespace Precedes

theorem trans (hde : f.Precedes d e) (hes : f.Precedes e s) (hf : f.Forest) : f.Precedes d s := by
  intro ss hwalk
  obtain ⟨before, between, rfl⟩ := List.append_of_mem (hes ss hwalk)
  exact List.mem_append_left _ (hde before (hf.walk_before hwalk))

/-- A statement that control can come to does not precede itself. -/
theorem irrefl (hf : f.Forest) (hwalk : f.Walk ss s) : ¬ f.Precedes s s := by
  intro hss
  obtain ⟨before, between, rfl, hfirst⟩ := List.eq_append_cons_of_mem (hss ss hwalk)
  exact hfirst (hss before (hf.walk_before hwalk))

/-- On a way to a statement, what precedes it is executed for a last time. -/
theorem exists_last (hes : f.Precedes e s) (hwalk : f.Walk ss s) :
    ∃ before between, ss = before ++ e :: between ∧ e ∉ between :=
  exists_last_of_mem (hes ss hwalk)

/-- What precedes a statement is not executed again between the last time that this is executed and
    a third statement that it precedes. -/
theorem not_mem_between (hde : f.Precedes d e) (hes : f.Precedes e s) (hf : f.Forest)
    (hwalk : f.Walk (before ++ e :: between) s) (hlast : e ∉ between) : d ∉ e :: between := by
  have hbefore := hf.walk_before hwalk
  rw [List.mem_cons, not_or]
  refine ⟨fun heq => (heq ▸ hde).irrefl hf hbefore, fun hd => ?_⟩
  -- if it were, a way could go there without coming by the second statement at all
  obtain ⟨first, rest, rfl, hfirst⟩ := List.eq_append_cons_of_mem (hde before hbefore)
  have hwalkd : f.Walk first d := hf.walk_before hbefore
  have hfirste : e ∉ first := by
    intro he
    obtain ⟨pre, post, rfl⟩ := List.append_of_mem he
    exact hfirst (List.mem_append_left _ (hde pre (hf.walk_before hwalkd)))
  obtain ⟨pre, post, rfl⟩ := List.append_of_mem hd
  rw [← List.cons_append, ← List.append_assoc] at hwalk
  have hmem := hes _ (hf.walk_join hwalk hwalkd)
  simp only [List.mem_append, List.mem_cons, not_or] at hmem hlast
  obtain he | rfl | he := hmem
  · exact hfirste he
  · exact hde.irrefl hf hbefore
  · exact hlast.2.2 he

end Precedes

end Flow

end FrameRecovery
