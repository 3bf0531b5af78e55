import FrameRecovery.Listing.Basic
import FrameRecovery.Proofs.Names
import FrameRecovery.Proofs.Sorted

namespace FrameRecovery

namespace Grammar

variable {ts : List Token} {a b : Action}

/-- What an instruction assigns to is a register or a cell of memory, an operand that is an
    instruction of its own is a call, and registers have names. -/
structure Acts (a : Action) : Prop where
  assign : ∀ x y, a = .assign x y → x.isAssignable = true
  call : ∀ x, a = .call x → x.isCall = true
  named : ∀ x ∈ a.operands, x.Named

/-- The tokens that each kind of instruction is read from. -/
inductive States : List Token → Action → Prop where
  | goto {rest t} (h : target rest = .ok (t, [])) : States (.name "goto" :: rest) (.goto t)
  | branch {rest rest' x t hlt} (hx : operand 0 rest = .ok (x, ⟨.name "goto" :: rest', hlt⟩))
    (h : target rest' = .ok (t, [])) : States (.name "if" :: rest) (.branch x t)
  | ret : States [.name "return"] (.ret none)
  | retValue {rest x hlt} (hx : operand 0 rest = .ok (x, ⟨[], hlt⟩)) : States (.name "return" :: rest) (.ret (some x))
  | assign {ts rest x y hlt hlt'} (hx : operand 0 ts = .ok (x, ⟨.mark .assign :: rest, hlt⟩))
    (hassignable : x.isAssignable = true) (hy : operand 0 rest = .ok (y, ⟨[], hlt'⟩)) : States ts (.assign x y)
  | call {ts x hlt} (hx : operand 0 ts = .ok (x, ⟨[], hlt⟩)) (hcall : x.isCall = true) : States ts (.call x)

private theorem eq_of_finish (h : finish a ts = .ok b) : ts = [] ∧ b = a := by
  cases ts <;> simp_all [finish]

private theorem states_of_assignOrCall (h : assignOrCall ts = .ok a) : States ts a := by
  unfold assignOrCall at h
  obtain ⟨⟨x, rest, hlt⟩, hx, h⟩ := exists_of_except_bind h
  dsimp only at h
  split at h
  next after =>
    split at h
    next hassignable =>
      obtain ⟨⟨y, rest', hlt'⟩, hy, h⟩ := exists_of_except_bind h
      obtain ⟨rfl, rfl⟩ := eq_of_finish h
      exact .assign hx hassignable hy
    next => cases h
  next =>
    split at h
    next hcall =>
      obtain ⟨rfl, rfl⟩ := eq_of_finish h
      exact .call hx hcall
    next => cases h

theorem states_of_instruction (h : instruction ts = .ok a) : States ts a := by
  unfold instruction at h
  split at h
  next =>
    obtain ⟨⟨t, rest⟩, ht, h⟩ := exists_of_except_bind h
    obtain ⟨rfl, rfl⟩ := eq_of_finish h
    exact .goto ht
  next =>
    obtain ⟨⟨x, rest, hlt⟩, hx, h⟩ := exists_of_except_bind h
    dsimp only at h
    split at h
    next =>
      obtain ⟨⟨t, rest'⟩, ht, h⟩ := exists_of_except_bind h
      obtain ⟨rfl, rfl⟩ := eq_of_finish h
      exact .branch hx ht
    next => cases h
  next =>
    cases h
    exact .ret
  next =>
    obtain ⟨⟨x, rest, hlt⟩, hx, h⟩ := exists_of_except_bind h
    obtain ⟨rfl, rfl⟩ := eq_of_finish h
    exact .retValue hx
  next => exact states_of_assignOrCall h

/-- The operands of an instruction have every property that operands get from their parts. -/
theorem States.operands {P : Operand → Prop} (hP : Closed P) (h : States ts a) (hts : Token.Named ts) :
    ∀ x ∈ a.operands, P x := by
  have hrest : ∀ {t : Token} {rest : List Token}, Token.Named (t :: rest) → Token.Named rest := fun h n hn =>
    h n (by simp [hn])
  cases h with
  | goto | ret => simp [Action.operands]
  | branch hx => simpa [Action.operands] using ((reads hP (hrest hts)).operand 0 _ _ hx).1
  | retValue hx => simpa [Action.operands] using ((reads hP (hrest hts)).operand 0 _ _ hx).1
  | assign hx hassignable hy =>
    obtain ⟨hPx, hsubset⟩ := (reads hP hts).operand 0 _ _ hx
    have hafter : Token.Named _ := fun n hn => hts n (hsubset (List.mem_cons_of_mem _ hn))
    simpa [Action.operands] using ⟨hPx, ((reads hP hafter).operand 0 _ _ hy).1⟩
  | call hx hcall => simpa [Action.operands] using ((reads hP hts).operand 0 _ _ hx).1

theorem States.acts (h : States ts a) (hts : Token.Named ts) : Acts a := by
  refine ⟨?_, ?_, h.operands closed_named hts⟩
  · rintro x y rfl
    cases h
    assumption
  · rintro x rfl
    cases h
    assumption

end Grammar

namespace Listing

variable {l l' : Listing} {line : Nat} {cs : List Char}

/-- Instructions are kept by their addresses, and act as instructions may. -/
structure WellFormed (l : Listing) : Prop where
  address_eq : ∀ a i, l.instruction? a = some i → i.address = a
  acts : ∀ a i, l.instruction? a = some i → Grammar.Acts i.action

/-- Each instruction is kept by its address and was read from a text. -/
structure Transcribed (l : Listing) : Prop where
  address_eq : ∀ a i, l.instruction? a = some i → i.address = a
  read : ∀ a i, l.instruction? a = some i → ∃ body, actionOf body = .ok i.action

theorem transcribed_empty : empty.Transcribed :=
  ⟨nofun, nofun⟩

theorem Transcribed.addInstruction (hl : l.Transcribed) (h : l.addInstruction line cs = .ok l') :
    l'.Transcribed := by
  unfold Listing.addInstruction at h
  split at h
  next before body _ =>
    split at h
    next address _ =>
      obtain ⟨action, haction, h⟩ := exists_of_except_bind h
      split at h
      · cases h
      · cases h
        have hcases : ∀ a i, (l.instructions.insert address ⟨address, line, action⟩).find? a = some i →
            (a = address ∧ i = ⟨address, line, action⟩) ∨ l.instruction? a = some i := by
          intro a i hi
          by_cases ha : a = address
          · subst ha
            rw [SortedMap.find?_insert_self] at hi
            exact .inl ⟨rfl, (Option.some.inj hi).symm⟩
          · rw [SortedMap.find?_insert_of_ne ha] at hi
            exact .inr hi
        refine ⟨fun a i hi => ?_, fun a i hi => ?_⟩
        · rcases hcases a i hi with ⟨rfl, rfl⟩ | hi
          · rfl
          · exact hl.address_eq a i hi
        · rcases hcases a i hi with ⟨rfl, rfl⟩ | hi
          · exact ⟨body, haction⟩
          · exact hl.read a i hi
    next => cases h
  next => cases h

theorem Transcribed.addLine (hl : l.Transcribed) (h : l.addLine line cs = .ok l') : l'.Transcribed := by
  unfold Listing.addLine at h
  split at h
  · cases h
    exact hl
  · split at h
    · cases h
      exact ⟨hl.address_eq, hl.read⟩
    · split at h
      · split at h
        · cases h
          exact ⟨hl.address_eq, hl.read⟩
        · cases h
      · exact hl.addInstruction h

theorem Transcribed.addLines (hl : l.Transcribed) {lines : List (List Char)}
    (h : l.addLines line lines = .ok l') : l'.Transcribed := by
  induction lines generalizing l line with
  | nil =>
    cases h
    exact hl
  | cons cs rest ih =>
    unfold Listing.addLines at h
    split at h
    next hline => exact ih (hl.addLine hline) h
    next => cases h

theorem transcribed_of_parse {text : String} (h : parse text = .ok l) : l.Transcribed := by
  unfold parse at h
  split at h
  · cases h
  next hlines =>
    split at h
    · cases h
    · cases h
      exact transcribed_empty.addLines hlines

private theorem eq_ok_of_mapError {ε ε' α : Type} {x : Except ε α} {g : ε → ε'} {v : α}
    (h : x.mapError g = .ok v) : x = .ok v := by
  cases x <;> simp_all [Except.mapError]

theorem exists_states_of_actionOf {action : Action} (h : actionOf cs = .ok action) :
    ∃ ts, Token.Named ts ∧ Grammar.States ts action := by
  unfold actionOf at h
  obtain ⟨ts, hts, h⟩ := exists_of_except_bind h
  exact ⟨ts, Token.named_of_scanAll (eq_ok_of_mapError hts), Grammar.states_of_instruction (eq_ok_of_mapError h)⟩

/-- Whatever text is accepted gives a well-formed listing. -/
theorem wellFormed_of_parse {text : String} (h : parse text = .ok l) : l.WellFormed := by
  have hl := transcribed_of_parse h
  refine ⟨hl.address_eq, fun a i hi => ?_⟩
  obtain ⟨body, hbody⟩ := hl.read a i hi
  obtain ⟨ts, hts, hstates⟩ := exists_states_of_actionOf hbody
  exact hstates.acts hts

/-- All operands of its instructions are as the grammar reads them. -/
def Readable (l : Listing) : Prop :=
  ∀ a i, l.instruction? a = some i → ∀ x ∈ i.action.operands, x.Readable

theorem readable_of_parse {text : String} (h : parse text = .ok l) : l.Readable := by
  intro a i hi
  obtain ⟨body, hbody⟩ := (transcribed_of_parse h).read a i hi
  obtain ⟨ts, hts, hstates⟩ := exists_states_of_actionOf hbody
  exact hstates.operands Grammar.closed_readable hts

end Listing

end FrameRecovery
