import Std.Data.TreeMap
import ClassLang.IR.Module

/-!
# The text of a module

A module is written line by line: its name, its structs, its globals, then each function. Values
without a name are numbered within their function, parameters first and then results in the order
they are written.
-/

namespace ClassLang.IR

namespace Text

/-- The two digits of a byte in base sixteen, in capitals. -/
def hexByte (b : UInt8) : String :=
  let digit (n : Nat) : Char := "0123456789ABCDEF".toList.getD n '0'
  String.ofList [digit (b.toNat / 16), digit (b.toNat % 16)]

/-- A byte inside quotes: visible characters as they are, quotes, backslashes and all others by
their digits. -/
def quotedByte (b : UInt8) : String :=
  if 0x20 ≤ b && b ≤ 0x7E && b != 0x22 && b != 0x5C then String.singleton (Char.ofNat b.toNat)
  else "\\" ++ hexByte b

/-- Bytes in quotes. -/
def quoted (bytes : List UInt8) : String :=
  "\"" ++ String.join (bytes.map quotedByte) ++ "\""

/-- Whether a name can be written without quotes. -/
def isPlain (name : String) : Bool :=
  name.toList.all (fun c => c.isAlphanum || c == '-' || c == '.' || c == '_')
    && !(name.toList.head?.any (·.isDigit))

/-- A name, in quotes if it needs them. -/
def name (name : String) : String :=
  if isPlain name then name else quoted name.toUTF8.toList

end Text

/-- The names of a function's values as they are written. -/
structure LocalNames where
  params : List String := []
  results : Std.TreeMap Nat String := ∅

namespace Function

/-- The instructions in layout order. -/
def instructions (f : Function) : List Instruction :=
  f.layout.flatMap fun number => (f.block number).instructions

/-- The written form of a value's name, and the next free number. -/
def numbered (name : String) (next : Nat) : String × Nat :=
  if name == "" then (toString next, next + 1) else (Text.name name, next)

/-- The written names of all parameters and results. -/
def localNames (f : Function) : LocalNames :=
  let (params, next) := f.paramNames.foldl (fun (params, next) name =>
    let (text, next) := numbered name next
    (params ++ [text], next)) (([] : List String), 0)
  let (results, _) := f.instructions.foldl (fun (results, next) i =>
    if i.op.resultType?.isSome then
      let (text, next) := numbered i.name next
      (results.insert i.id text, next)
    else (results, next)) ((∅ : Std.TreeMap Nat String), next)
  { params, results }

end Function

namespace Ty

/-- The text of a type. -/
def text (structs : Structs) : Ty → String
  | .int w => "i" ++ toString w.bits
  | .ptr => "ptr"
  | .struct id => "%" ++ Text.name ((structs.getD id default).name)
  | .bytes length => "[" ++ toString length ++ " x i8]"

end Ty

/-- What the printer knows of a module. -/
structure Printer where
  module : Module
  locals : Array LocalNames

namespace Printer

/-- A printer of a module. -/
def ofModule (m : Module) : Printer :=
  { module := m, locals := m.functions.map (·.localNames) }

variable (p : Printer)

/-- The text of a type. -/
def type (t : Ty) : String :=
  t.text p.module.structs

/-- The text of a result type. -/
def resultType (t : Option Ty) : String :=
  (t.map p.type).getD "void"

/-- The text of a global's or function's name. -/
def symbol (name : String) : String :=
  "@" ++ Text.name name

/-- The name of a function. -/
def functionName (id : FunctionId) : String :=
  symbol (p.module.function id).name

mutual

/-- The text of a constant. -/
def const : Const → String
  | .int .w1 n => if n == 0 then "false" else "true"
  | .int _ n => toString n
  | .null => "null"
  | .poison _ => "poison"
  | .bytes data =>
    if data.all (· == 0) then "zeroinitializer" else "c" ++ Text.quoted data
  | .struct _ fields =>
    if Const.allZero fields then "zeroinitializer"
    else "\x7b " ++ ", ".intercalate (typedConsts fields) ++ " \x7d"
  | .globalAddr id => symbol (p.module.globals.getD id default).name
  | .functionAddr id => p.functionName id
  | .fieldAddr struct base index =>
    "getelementptr inbounds (" ++ p.type (.struct struct) ++ ", ptr " ++ const base
      ++ ", i32 0, i32 " ++ toString index ++ ")"

/-- Constants with their types. -/
def typedConsts : List Const → List String
  | [] => []
  | c :: rest => (p.type c.type ++ " " ++ const c) :: typedConsts rest

end

/-- The text of a value. -/
def value : Value → String
  | .const c => p.const c
  | .param function index _ =>
    "%" ++ ((p.locals.getD function {}).params.getD index "")
  | .result function id _ =>
    "%" ++ ((p.locals.getD function {}).results.getD id "")

/-- A value with its type. -/
def typed (v : Value) : String :=
  p.type v.type ++ " " ++ p.value v

/-- The label of a block as an operand. -/
def label (b : BlockRef) : String :=
  "%" ++ Text.name (p.module.block b).label

/-- The word for an integer operation. -/
def intOp : IntOp → String
  | .add => "add"
  | .sub => "sub"
  | .mul => "mul"
  | .sdiv => "sdiv"
  | .srem => "srem"
  | .shl => "shl"
  | .ashr => "ashr"
  | .xor => "xor"

/-- The word for a comparison. -/
def predicate : Predicate → String
  | .eq => "eq"
  | .ne => "ne"
  | .slt => "slt"
  | .sle => "sle"
  | .sgt => "sgt"
  | .sge => "sge"

/-- Parameter types, with an ellipsis if more arguments may follow. -/
def paramList (params : List String) (varargs : Bool) : String :=
  "(" ++ ", ".intercalate (params ++ if varargs then ["..."] else []) ++ ")"

/-- The text of a call. -/
def call (callee : String) (t : FnType) (args : List Value) : String :=
  let kind := if t.varargs then " " ++ paramList (t.params.map p.type) true else ""
  "call " ++ p.resultType t.result ++ kind ++ " " ++ callee
    ++ "(" ++ ", ".intercalate (args.map p.typed) ++ ")"

/-- The text of an operation. -/
def op : Op → String
  | .alloca t => "alloca " ++ p.type t
  | .load t address => "load " ++ p.type t ++ ", " ++ p.typed address
  | .store v address => "store " ++ p.typed v ++ ", " ++ p.typed address
  | .field struct base index =>
    "getelementptr inbounds " ++ p.type (.struct struct) ++ ", " ++ p.typed base
      ++ ", i32 0, i32 " ++ toString index
  | .binary op lhs rhs => intOp op ++ " " ++ p.typed lhs ++ ", " ++ p.value rhs
  | .compare pr lhs rhs =>
    "icmp " ++ predicate pr ++ " " ++ p.typed lhs ++ ", " ++ p.value rhs
  | .widen v t => "zext " ++ p.typed v ++ " to " ++ p.type t
  | .call (.direct function) t args => p.call (p.functionName function) t args
  | .call (.indirect target) t args => p.call (p.value target) t args
  | .phi t incoming =>
    let entries := incoming.map fun (v, b) => "[ " ++ p.value v ++ ", " ++ p.label b ++ " ]"
    "phi " ++ p.type t ++ " " ++ ", ".intercalate entries
  | .jump target => "br label " ++ p.label target
  | .branch cond yes no =>
    "br " ++ p.typed cond ++ ", label " ++ p.label yes ++ ", label " ++ p.label no
  | .ret none => "ret void"
  | .ret (some v) => "ret " ++ p.typed v
  | .unreachable => "unreachable"

/-- The line of an instruction. -/
def instruction (function : FunctionId) (i : Instruction) : String :=
  match i.op.resultType? with
  | some t => "  " ++ p.value (.result function i.id t) ++ " = " ++ p.op i.op
  | none => "  " ++ p.op i.op

/-- The lines of a block. -/
def block (function : FunctionId) (b : Block) : List String :=
  (Text.name b.label ++ ":") :: b.instructions.map (p.instruction function)

/-- The lines of a function, a blank one first. -/
def function (id : FunctionId) (f : Function) : List String :=
  let result := p.resultType f.type.result
  if f.hasBody then
    let params := f.type.params.zipIdx.map fun (t, index) =>
      p.typed (.param id index t)
    let head := "define " ++ result ++ " " ++ symbol f.name
      ++ paramList params f.type.varargs ++ " \x7b"
    let blocks := f.layout.map fun number => p.block id (f.block number)
    "" :: head :: [""].intercalate blocks ++ ["\x7d"]
  else
    ["", "declare " ++ result ++ " " ++ symbol f.name
      ++ paramList (f.type.params.map p.type) f.type.varargs]

/-- The line of a struct. -/
def struct (s : StructDef) : String :=
  let body := match s.fields with
    | none => "opaque"
    | some [] => "\x7b\x7d"
    | some fields => "\x7b " ++ ", ".intercalate (fields.map p.type) ++ " \x7d"
  "%" ++ Text.name s.name ++ " = type " ++ body

/-- The line of a global. -/
def global (g : Global) : String :=
  symbol g.name ++ " = private constant " ++ p.type g.type ++ " " ++ p.const g.init

end Printer

/-- The lines of a module. -/
def Module.lines (m : Module) : List String :=
  let p := Printer.ofModule m
  let section' (lines : List String) : List String := if lines.isEmpty then [] else "" :: lines
  ["; ModuleID = '" ++ m.name ++ "'"]
    ++ section' (m.structs.toList.map p.struct)
    ++ section' (m.globals.toList.map p.global)
    ++ (m.functions.toList.zipIdx.flatMap fun (f, id) => p.function id f)

end ClassLang.IR
