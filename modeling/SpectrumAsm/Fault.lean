/-
Everything that can be wrong with a program, and how it is reported: a cause, its code and its
message. Messages are made nowhere else.
-/
import SpectrumAsm.Text.Digits

namespace SpectrumAsm

inductive ExprFault where
  | unary (op type : String)
  | binary (op left right : String)
  | divideByZero
  | unknownFunction (name : String)
  | signature (name : String)
  | domain (name : String)
  | stringTooLong (limit : Nat)
  | condition
  | counterOutsideLoop
  | param (name : String)
  deriving DecidableEq, Repr

def ExprFault.message : ExprFault → String
  | unary op type => s!"The {op} operator cannot be applied on a {type} value"
  | binary op left right => s!"The {op} operator cannot be applied on {left} and {right} values"
  | divideByZero => "Divide by zero error"
  | unknownFunction name => s!"Unknown function '{name}'"
  | signature name => s!"The arguments of '{name}' do not match any of its signatures"
  | domain name => s!"An argument of '{name}' is out of its domain"
  | stringTooLong limit => s!"A string value cannot be longer than {limit} characters"
  | condition => "A string value cannot be used as a condition"
  | counterOutsideLoop => "$CNT is used outside of a loop"
  | param name => "Macro parameter \x7b\x7b" ++ name ++ "\x7d\x7d is used outside of a macro"

inductive Fault where
  -- operations
  | invalidOperation (op : String)
  | bitIndex (n : Int64)
  | invalidOperand (op operand : String)
  | inPortRegister
  | outValue
  | accumulatorOnly (op : String)
  | aluSecondOperand (op operand : String)
  | firstOperand (op operand : String)
  | secondOperand (op first operand : String)
  | condition (op condition : String)
  | exAf
  | exDe
  | exFirst
  | exSp
  | jpIndirect
  | jpCondition
  | rstTarget (n : Int64)
  | altAf (op : String)
  | interruptMode (n : Int64)
  | invalidLoad (destination source : String)
  | relativeJump (distance : Int)
  | twoArgumentForm (op : String)
  | popExpression
  -- labels and pragmas
  | labelDefined (name : String)
  | unexpectedElse
  | unexpectedEndif
  | missingEndif
  | skipBackwards (target current : UInt16)
  | equLabel
  | varLabel
  | varRedefine
  | modelTwice
  | modelValue
  | ifModValue
  | defmString
  | alignValue (n : Int64)
  | defhString
  | defhDigits
  -- lines
  | unexpectedToken (text : String)
  | unexpectedEnd
  | nextOnly
  -- expressions
  | expression (cause : ExprFault)
  | notEvaluable (names : String)
  -- files and values
  | includeNotFound (path : String)
  | includeRead (path reason : String)
  | includeTwice (path : String)
  | includeCircular (path : String)
  | addressOverflow
  | numericExpected
  | stringExpected
  | emptyPattern
  | integralExpected
  -- compile-time statements
  | macroName
  | missingEnd (closer : String)
  | macroDefined (name : String)
  | unknownMacroArg (name : String)
  | nestedMacro
  | orphan (closer opener : String)
  | loopCount
  | globalOnly (pragma : String)
  | tooManyLoopErrors
  | loopOverflow
  | sectionAfterElse (part : String)
  | sectionLabel (part : String)
  | counterOutsideLoop
  | zeroStep
  | forVariable (name : String)
  | breakOutsideLoop
  | continueOutsideLoop
  | duplicateMacroArg (name : String)
  | unknownMacro (name : String)
  | tooManyMacroArgs (name : String) (declared given : Nat)
  | macroParamOutside
  | macroParamInArgument
  | macroDepth (name : String) (limit : Nat)
  | includeBinOpen (path reason : String)
  | includeBinOffset
  | includeBinLength
  | includeBinOverflow
  | moduleName
  | moduleDefined (name : String)
  | structName
  | structDefined (name : String)
  | structContent
  | endsLabel
  | duplicateField (name : String)
  | structArguments (name : String)
  | fieldOutside
  | unknownField (name field : String)
  | structOverflow (name : String) (size wanted : Nat)
  | localOutside
  | localDefined (name : String)
  | user (text : String)
  -- host
  | fileOpen (path : String)
  | config (path reason : String)
  deriving DecidableEq, Repr

namespace Fault

/-- The fault of a line whose expression is faulty. Counters and parameters out of place are faults
of their own. -/
def ofExpr : ExprFault → Fault
  | .counterOutsideLoop => counterOutsideLoop
  | .param _ => macroParamOutside
  | cause => expression cause

def hexWord (n : Int64) : String := Text.hexUpper 0 n.toUInt64.toNat

/-- The code of a fault and its text. -/
def described : Fault → String × String
  | invalidOperation op => ("Z0001", s!"The '{op}' operation with the specified operands is invalid")
  | bitIndex n => ("Z0002", "Bit index should be between 0 and 7. '" ++ toString n.toInt ++ "' is invalid")
  | invalidOperand op operand => ("Z0004", s!"{op} operation cannot have {operand} as its operand")
  | inPortRegister => ("Z0005", "'IN reg,(port)' operation can use only 'A' as its register operand")
  | outValue => ("Z0006", "Output value can only be 0")
  | accumulatorOnly op => ("Z0007", s!"The first 8-bit argument of {op} can only be 'A'")
  | aluSecondOperand op operand => ("Z0008", s!"The second operand of '{op} A,{operand}' is invalid")
  | firstOperand op operand => ("Z0009", s!"{op} cannot have {operand} as its first operand")
  | secondOperand op first operand => ("Z0010", s!"'{op} {first},...' cannot have {operand} as its second operand")
  | condition op flag => ("Z0011", s!"{op} cannot be used with {flag}")
  | exAf => ("Z0012", "The EX AF,... operation should use AF' as its second argument")
  | exDe => ("Z0013", "The EX DE,... operation should use HL as its second argument")
  | exFirst => ("Z0014", "The EX operation should use AF, DE, or (SP) as its first argument")
  | exSp => ("Z0015", "The EX (SP)' operation should use HL, IX, or IY as its second argument")
  | jpIndirect => ("Z0016", "JP can be used only with (HL), (IX), or (IY), but no other forms of indirection")
  | jpCondition => ("Z0017", "JP with an indirect target cannot be used with conditions")
  | rstTarget n => ("Z0018",
    "RST can be used only with #00, #08, #10, #18, #20, #28, #30, or #38 arguments. #" ++ hexWord n ++ " is invalid.")
  | altAf op => ("Z0019", s!"{op} AF' is invalid")
  | interruptMode n => ("Z0020", "Interrupt mode can only be 0, 1, or 2. '" ++ toString n.toInt ++ "' is invalid.")
  | invalidLoad destination source => ("Z0021", s!"'LD {destination},{source}' is an invalid operation")
  | relativeJump distance => ("Z0022", s!"Relative jump distance should be between -128 and 127. {distance} is invalid")
  | twoArgumentForm op => ("Z0023", s!"The first operand must be A when using the two-argument form of {op}")
  | popExpression => ("Z0024", "POP cannot be used with an expression operand")
  | labelDefined name => ("Z0040", s!"Label '{name}' is already defined")
  | unexpectedElse => ("Z0060", "Unexpected #else directive")
  | unexpectedEndif => ("Z0061", "Unexpected #endif directive")
  | missingEndif => ("Z0062", "Missing #endif directive")
  | skipBackwards target current => ("Z0081",
    "SKIP to " ++ Text.hexUpper 4 target.toNat ++
      " is invalid, as this address is less than the current address, " ++ Text.hexUpper 4 current.toNat)
  | equLabel => ("Z0082", "An EQU pragma must have a label")
  | varLabel => ("Z0086", "A VAR pragma must have a label")
  | varRedefine => ("Z0087", "A VAR pragma cannot redefine a non-VAR-created symbol")
  | modelTwice => ("Z0088", "A MODEL pragma can be used only once.")
  | modelValue => ("Z0089",
    "A MODEL pragma can have only these values: 'SPECTRUM48', 'SPECTRUM128', 'SPECTRUMP3', 'NEXT'.")
  | ifModValue => ("Z0090",
    "An #ifmod or #ifnmod directive can be used only with these identifiers: 'SPECTRUM48', " ++
      "'SPECTRUM128', 'SPECTRUMP3', 'NEXT'.")
  | defmString => ("Z0091", "DEFM/DEFN pragma requires a string argument.")
  | alignValue n => ("Z0092",
    "ALIGN pragma must be used with a parameter value between 1 and #4000; " ++ toString n.toInt ++
      " in an invalid value.")
  | defhString => ("Z0093", "DEFH pragma requires a string argument.")
  | defhDigits => ("Z0094", "DEFH pragma requires a string with even hexadecimal digits.")
  | unexpectedToken text => ("Z0100", s!"Unexpected token: '{text}'")
  | unexpectedEnd => ("Z0101", "Unexpected end of line")
  | nextOnly => ("Z0102",
    "To use this Spectrum Next-specific instruction, you need to set MODEL type to NEXT explicitly.")
  | expression cause => ("Z0200", "Expression evaluation resulted an error: " ++ cause.message)
  | notEvaluable names => ("Z0201",
    "This expression cannot be evaluated promptly, it may refer to one or more undefined " ++ "symbols (" ++
      names ++ ")")
  | includeNotFound path => ("Z0300", s!"Cannot find include file: '{path}'")
  | includeRead path reason => ("Z0301", s!"Error reading include file: '{path}' ({reason})")
  | includeTwice path => ("Z0302",
    s!"Include file '{path}' is included more than once into the same parent source file")
  | includeCircular path => ("Z0303", s!"Include file '{path}' causes circular file reference")
  | addressOverflow => ("Z0304", "The current assembly address overflew #FFFF")
  | numericExpected => ("Z0305", "A string value is used where a numeric value is expected.")
  | stringExpected => ("Z0306", "A string value is expected.")
  | emptyPattern => ("Z0307", "Cannot use an empty pattern with DEFG pragma.")
  | integralExpected => ("Z0308", "An integral value is expected.")
  | macroName => ("Z0400", "You cannot define a macro without a name.")
  | missingEnd closer => ("Z0401", s!"Missing {closer} statement.")
  | macroDefined name => ("Z0402", s!"Macro name '{name}' has already been declared.")
  | unknownMacroArg name => ("Z0403", s!"Unknown macro argument is used '{name}' macro definition.")
  | nestedMacro => ("Z0404", "Macro definition cannot be nested into another macro definition.")
  | orphan closer opener => ("Z0405",
    s!"Orphan '{closer}' statement found without a corresponding '{opener}' statement.")
  | loopCount => ("Z0406", "Loop counter cannot be greater than 65535 (#FFFF).")
  | globalOnly pragma => ("Z0407", s!"The {pragma} pragma can be used only in the global scope.")
  | tooManyLoopErrors => ("Z0408", "Too many errors detected while compiling a loop, further processing aborted.")
  | loopOverflow => ("Z0409", "Loop counter exceeded the maximum value of 65535 (#FFFF).")
  | sectionAfterElse part => ("Z0410", s!"IF cannot have an {part} section after a detected ELSE section.")
  | sectionLabel part => ("Z0411", s!"{part} section in IF cannot have a label.")
  | counterOutsideLoop => ("Z0412", "$CNT cannot be used outside of loop constructs.")
  | zeroStep => ("Z0413", "The STEP value in a FOR-loop cannot be zero.")
  | forVariable name => ("Z0414",
    s!"Variable {name} is already declared, it cannot be used as a FOR-loop variable again.")
  | breakOutsideLoop => ("Z0415", "BREAK cannot be used outside of loop constructs.")
  | continueOutsideLoop => ("Z0416", "CONTINUE cannot be used outside of loop constructs.")
  | duplicateMacroArg name => ("Z0417", s!"Duplicated MACRO argument: {name}.")
  | unknownMacro name => ("Z0418", s!"Unknown MACRO: {name}.")
  | tooManyMacroArgs name declared given => ("Z0419",
    s!"The declaration of MACRO {name} contains {declared} argument(s), " ++
      s!"but it is invoked with more parameters ({given}).")
  | macroParamOutside => ("Z0420", "Macro parameter can only be used within a macro declaration.")
  | macroParamInArgument => ("Z0422", "Cannot pass a macro parameter template in a macro parameter.")
  | macroDepth name limit => ("Z0421", s!"MACRO {name} cannot be expanded deeper than {limit} levels.")
  | includeBinOpen path reason => ("Z0423", s!"Cannot open file '{path}' used in INCLUDEBIN pragma ({reason}).")
  | includeBinOffset => ("Z0424", "Invalid INCLUDEBIN offset value (negative, or greater than the file length).")
  | includeBinLength => ("Z0425", "Invalid INCLUDEBIN length value (negative, or segment exceeds the file length).")
  | includeBinOverflow => ("Z0426", "Emitting the INCLUDEBIN segment would overflow the #FFFF assembly address.")
  | moduleName => ("Z0428", "You cannot define a module without a name.")
  | moduleDefined name => ("Z0429", s!"Module with name '{name}' already exists.")
  | structName => ("Z0432", "You cannot define a struct without a name.")
  | structDefined name => ("Z0434", s!"Structure name '{name}' has already been declared.")
  | structContent => ("Z0435", "Structures can use only pragmas that emit bytes, words, strings, or reserve space.")
  | endsLabel => ("Z0436", "The ENDS statement cannot have a label.")
  | duplicateField name => ("Z0438", s!"Duplicated field label {name} in a .struct definition.")
  | structArguments name => ("Z0439", s!"A .struct invocation ({name}) cannot have arguments.")
  | fieldOutside => ("Z0440", "Field assignment instruction cannot be used outside of .struct invocation.")
  | unknownField name field => ("Z0441", s!"The .struct definition of {name} does not have a field named {field}.")
  | structOverflow name size wanted => ("Z0442",
    s!"The .struct size of {name} is {size} byte(s). The invocation wants to emit {wanted} bytes.")
  | localOutside => ("Z0448", "LOCAL can be used only within PROC.")
  | localDefined name => ("Z0449", s!"This local symbol is already declared: ({name}).")
  | user text => ("Z0500", "ERROR: " ++ text)
  | fileOpen path => ("IO", "Failed to open file: " ++ path)
  | config path reason => ("IO", s!"Failed to parse config {path}: {reason}")

def code (f : Fault) : String := f.described.1

def message (f : Fault) : String := f.described.2

end Fault

structure Diagnostic where
  fault : Fault
  file : String
  line : Nat
  deriving DecidableEq, Repr

end SpectrumAsm
