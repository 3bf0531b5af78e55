namespace FrameRecovery

/-- The switches of a recovery. -/
structure Options where
  /-- Prune until nothing more is dead, instead of once -/
  pruneToFixedPoint : Bool := false
  /-- Check the use chains before pruning -/
  verifyUseChains : Bool := true
  /-- Read `sp - c` as the offset `-c`; otherwise it is `c`, as for `sp + c` -/
  negateSubtractedOffsets : Bool := true
  /-- Log the flow after each phase -/
  logFlowAfterEachPhase : Bool := false
  /-- Write instruction addresses in front of statements -/
  showAddresses : Bool := false
deriving DecidableEq, Repr

/-- The requests to change a switch. -/
inductive Switch where
  | pruneToFixedPoint
  | skipUseChainVerification
  | keepSubtractedOffsets
  | logFlowAfterEachPhase
  | showAddresses
deriving DecidableEq, Repr

namespace Switch

/-- Every request. -/
def all : List Switch :=
  [pruneToFixedPoint, skipUseChainVerification, keepSubtractedOffsets, logFlowAfterEachPhase,
    showAddresses]

/-- The name by which a request is made. -/
def name : Switch → String
  | pruneToFixedPoint => "enable-prune-to-fixed-point"
  | skipUseChainVerification => "disable-use-chain-verification"
  | keepSubtractedOffsets => "disable-negated-stack-offsets"
  | logFlowAfterEachPhase => "enable-debug-print-flow-after-each-phase"
  | showAddresses => "enable-debug-print-addresses"

/-- The request of a name. -/
def ofName? (s : String) : Option Switch :=
  all.find? fun w => w.name == s

end Switch

/-- The switches after one more request. -/
def Options.apply (o : Options) : Switch → Options
  | .pruneToFixedPoint => { o with pruneToFixedPoint := true }
  | .skipUseChainVerification => { o with verifyUseChains := false }
  | .keepSubtractedOffsets => { o with negateSubtractedOffsets := false }
  | .logFlowAfterEachPhase => { o with logFlowAfterEachPhase := true }
  | .showAddresses => { o with showAddresses := true }

/-- The switches that a list of requests sets. -/
def Options.ofSwitches (ws : List Switch) : Options :=
  ws.foldl Options.apply {}

end FrameRecovery
