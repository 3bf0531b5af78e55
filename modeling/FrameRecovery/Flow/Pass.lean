import FrameRecovery.Error
import FrameRecovery.Flow.Edit

namespace FrameRecovery

/-- A change of a flow that can fail. What was changed before the failure stays. -/
abbrev Pass := ExceptT Error Edit

end FrameRecovery
