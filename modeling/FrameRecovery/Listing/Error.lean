import FrameRecovery.Listing.Grammar

namespace FrameRecovery

/-- What can be wrong with a line of a listing. -/
inductive LineFault where
  | badEntry (text : String)
  | noAddress
  | badAddress (text : String)
  | badToken (fault : Token.Fault)
  | badInstruction (fault : GrammarFault)
  | duplicate (address : Address)
  | noInstructions

/-- Why a listing is refused, and the line at fault; the line is 0 if it is the listing as a
    whole. -/
structure ListingError where
  line : Nat
  fault : LineFault

/-- The wording of a fault in the characters of an instruction. -/
def Token.Fault.message : Token.Fault → String
  | badInteger digits => "Bad integer literal `" ++ digits ++ "`"
  | unexpectedCharacter c => "Unexpected character `" ++ c.toString ++ "`"

/-- The wording of a fault in the tokens of an instruction. -/
def GrammarFault.message : GrammarFault → String
  | expectedMark m found => "Expected `" ++ m.text ++ "`, found " ++ Token.structuralText? found
  | expectedOperand found => "Expected an operand, found " ++ Token.structuralText? found
  | expectedTarget found =>
    "Expected branch target address, found " ++ Token.structuralText? found
  | expectedGoto => "Expected `goto` after condition"
  | expectedInstruction => "Expected an assignment, a branch, a call, or a return"
  | keywordInOperand keyword => "Unexpected keyword `" ++ keyword ++ "` in expression"
  | notAssignable operand => "Left-hand side " ++ operand.structuralText ++ " is not assignable"
  | trailing t => "Unexpected trailing " ++ t.structuralText

/-- The wording of a fault in a line. -/
def LineFault.message : LineFault → String
  | badEntry text => "Bad entry address `" ++ text ++ "`"
  | noAddress => "Expected `ADDRESS: statement`"
  | badAddress text => "Bad instruction address `" ++ text ++ "`"
  | badToken fault => fault.message
  | badInstruction fault => fault.message
  | duplicate address => "Duplicate instruction at " ++ address.text
  | noInstructions => "Listing has no instructions"

end FrameRecovery
