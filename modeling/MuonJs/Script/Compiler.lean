import MuonJs.Script.Bytecode
import MuonJs.Script.Text

/-!
# The bytecode compiler

`StmtCompiler` and `ExprCompiler`: one pass over the text, in which code is
emitted while it is parsed and forward jumps are patched later.  An error of the
source is none; its callers do not look at the message.

The functions that call each other take fuel, which stands for the depth of the
calls.  An expression is parsed from the rest of the input.
-/

namespace MuonJs
namespace Script

open Cache (Bytes F64 asBytes parseF64 parseI64 isAsciiDigit)

/-! ## Numbers -/

/-- `f64 as i32`: truncated, and kept in range. -/
def asI32 (value : F64) : Int32 :=
  if value.isNan then 0
  else
    let exponent := value.magnitude / 2 ^ 52
    let significand := value.magnitude % 2 ^ 52 + if exponent = 0 then 0 else 2 ^ 52
    let whole : ℕ :=
      if 1075 ≤ exponent then significand * 2 ^ (exponent - 1075)
      else significand / 2 ^ (1075 - max exponent 1)
    let signed : ℤ := if value.bits.toNat < 2 ^ 63 then whole else -whole
    Int32.ofInt (max (-2 ^ 31) (min (2 ^ 31 - 1) signed))

/-- `i32 as f64`. -/
def i32AsF64 (value : Int32) : F64 :=
  F64.ofMagnitude (value.toInt < 0) (F64.roundRatio value.toInt.natAbs 1)

/-- `str::parse::<i32>`. -/
def parseI32 (text : Bytes) : Option Int32 :=
  (parseI64 text).bind fun value =>
    if -2 ^ 31 ≤ value.toInt ∧ value.toInt < 2 ^ 31 then some (Int32.ofInt value.toInt) else none

namespace Context

/-- `js_new_string`. -/
def newString (ctx : Context) (bytes : Bytes) : JSValue × Context :=
  match ctx.allocString bytes with
  | some (address, ctx) => (.ptr address, ctx)
  | none => (.exception, ctx)

/-- `js_new_float64`. -/
def newFloat64 (ctx : Context) (value : F64) : JSValue × Context :=
  match ctx.allocFloat value with
  | some (address, ctx) => (.ptr address, ctx)
  | none => (.exception, ctx)

/-- `number_to_value`. -/
def numberToValue (ctx : Context) (number : F64) : JSValue × Context :=
  if (i32AsF64 (asI32 number)).partialCmp number = some .eq ∧
      (number.key ≠ 0 ∨ number.bits.toNat < 2 ^ 63) then
    (.int (asI32 number), ctx)
  else ctx.newFloat64 number

end Context

/-! ## Emission -/

/-- `StmtCompiler`. -/
structure StmtCompiler where
  ctx : Context
  func : BytecodeFunction

namespace StmtCompiler

/-- `StmtCompiler::new`. -/
def new (ctx : Context) : StmtCompiler := ⟨ctx, .new⟩

/-- The position after the code that is there, as an operand. -/
def here (sc : StmtCompiler) : UInt32 := UInt32.ofNat sc.func.code.length

/-- Push an instruction. -/
def push (sc : StmtCompiler) (op : OpCode) (a b : UInt32) : StmtCompiler :=
  { sc with func := { sc.func with code := sc.func.code ++ [⟨op, a, b⟩] } }

/-- `emit_op`. -/
def emitOp (sc : StmtCompiler) (op : OpCode) : StmtCompiler := sc.push op 0 0

/-- `emit_inst`. -/
def emitInst (sc : StmtCompiler) (op : OpCode) (a : UInt32) : StmtCompiler := sc.push op a 0

/-- `patch_jump`: let the jump at a position lead here. -/
def patchJump (sc : StmtCompiler) (position : ℕ) : StmtCompiler :=
  { sc with func := { sc.func with
      code := sc.func.code.modify position fun ins => { ins with a := sc.here } } }

/-- Push a constant. -/
def pushConst (sc : StmtCompiler) (value : JSValue) : UInt32 × StmtCompiler :=
  (UInt32.ofNat sc.func.constants.length,
    { sc with func := { sc.func with constants := sc.func.constants ++ [value] } })

/-- The index of the first constant that is accepted, or of a new one. -/
def findConst (sc : StmtCompiler) (accepts : JSValue → Bool) (value : JSValue) :
    UInt32 × StmtCompiler :=
  match sc.func.constants.findIdx? accepts with
  | some index => (UInt32.ofNat index, sc)
  | none => sc.pushConst value

/-- `add_undefined_const`. -/
def addUndefinedConst (sc : StmtCompiler) : UInt32 × StmtCompiler :=
  sc.findConst (fun value => value = .undefined) .undefined

/-- `add_number_const`. -/
def addNumberConst (sc : StmtCompiler) (number : F64) : UInt32 × StmtCompiler :=
  let (value, ctx) := sc.ctx.numberToValue number
  { sc with ctx := ctx }.findConst (fun other => other = value) value

/-- `add_string_const`. -/
def addStringConst (sc : StmtCompiler) (text : Bytes) : UInt32 × StmtCompiler :=
  match sc.func.constants.findIdx? fun value => sc.ctx.stringBytes value = some text with
  | some index => (UInt32.ofNat index, sc)
  | none =>
      let (value, ctx) := sc.ctx.newString text
      { sc with ctx := ctx }.pushConst value

/-- Emit an instruction on a constant that may have to be made. -/
def emitOn (op : OpCode) (made : UInt32 × StmtCompiler) : StmtCompiler :=
  made.2.emitInst op made.1

/-- `emit_const`. -/
def emitConst (sc : StmtCompiler) (number : F64) : StmtCompiler :=
  emitOn .const (sc.addNumberConst number)

/-- `emit_string_const`. -/
def emitStringConst (sc : StmtCompiler) (text : Bytes) : StmtCompiler :=
  emitOn .const (sc.addStringConst text)

/-- `find_local`. -/
def findLocal (sc : StmtCompiler) (name : Bytes) : Option UInt32 :=
  (sc.func.locals.findIdx? fun other => other = name).map UInt32.ofNat

/-- `ensure_local`. -/
def ensureLocal (sc : StmtCompiler) (name : Bytes) : UInt32 × StmtCompiler :=
  match sc.findLocal name with
  | some slot => (slot, sc)
  | none =>
      (UInt32.ofNat sc.func.locals.length,
        { sc with func := { sc.func with locals := sc.func.locals ++ [name] } })

/-- `add_params`. -/
def addParams (sc : StmtCompiler) (names : List Bytes) : StmtCompiler :=
  names.foldl (fun sc name => (sc.ensureLocal name).2) sc

end StmtCompiler

/-! ## Tokens -/

/-- `skip_ws`. -/
def skipWs (input : Bytes) : Bytes :=
  input.dropWhile fun byte => byte = 32 || byte = 10 || byte = 13 || byte = 9

/-- `consume`. -/
def consume (byte : UInt8) : Bytes → Option Bytes
  | [] => none
  | first :: rest => if first = byte then some rest else none

/-- `check`. -/
def check (byte : UInt8) (input : Bytes) : Bool := input.head? = some byte

/-- `consume_seq`. -/
def consumeSeq (seq input : Bytes) : Option Bytes := stripPrefix seq input

/-- `parse_identifier`. -/
def parseIdentifier (input : Bytes) : Option (Bytes × Bytes) :=
  match skipWs input with
  | [] => none
  | first :: rest =>
      if isIdentStart first then
        some (first :: rest.takeWhile isIdentByte, rest.dropWhile isIdentByte)
      else none

/-- The text that `parse_number` takes, and the rest. -/
def numberText (input : Bytes) : Bytes × Bytes :=
  let (mantissa, rest) : Bytes × Bytes := match input with
    | 46 :: rest => (46 :: rest.takeWhile isAsciiDigit, rest.dropWhile isAsciiDigit)
    | _ =>
        match input.dropWhile isAsciiDigit with
        | 46 :: rest =>
            (input.takeWhile isAsciiDigit ++ 46 :: rest.takeWhile isAsciiDigit,
              rest.dropWhile isAsciiDigit)
        | rest => (input.takeWhile isAsciiDigit, rest)
  match rest with
  | mark :: rest =>
      if mark = 101 ∨ mark = 69 then
        let (sign, rest) : Bytes × Bytes := match rest with
          | 43 :: rest => ([43], rest)
          | 45 :: rest => ([45], rest)
          | _ => ([], rest)
        (mantissa ++ mark :: sign ++ rest.takeWhile isAsciiDigit, rest.dropWhile isAsciiDigit)
      else (mantissa, mark :: rest)
  | [] => (mantissa, [])

/-- `parse_number`. -/
def parseNumber (input : Bytes) : Option (F64 × Bytes) :=
  let (text, rest) := numberText (skipWs input)
  (parseF64 text).map fun number => (number, rest)

/-- The value of a hexadecimal digit. -/
def hexDigit (byte : UInt8) : Option ℕ :=
  if 48 ≤ byte ∧ byte ≤ 57 then some (byte.toNat - 48)
  else if 97 ≤ byte ∧ byte ≤ 102 then some (byte.toNat - 87)
  else if 65 ≤ byte ∧ byte ≤ 70 then some (byte.toNat - 55)
  else none

/-- `from_str_radix(_, 16)` for values below a bound. -/
def parseHex (bound : ℕ) (text : Bytes) : Option ℕ :=
  let digits := match text with
    | 43 :: first :: rest => first :: rest
    | _ => text
  if digits.isEmpty then none
  else digits.foldlM (fun value byte => (hexDigit byte).bind fun digit =>
    if value * 16 + digit < bound then some (value * 16 + digit) else none) 0

/-- The UTF-8 of the character of a code point, nothing if there is none. -/
def codePointBytes (code : ℕ) : Bytes :=
  if code.isValidChar then asBytes (String.singleton (Char.ofNat code)) else []

/-- What a simple escape stands for. -/
def escapedByte (byte : UInt8) : Bytes :=
  if byte = 110 then [10]
  else if byte = 114 then [13]
  else if byte = 116 then [9]
  else if byte = 98 then [8]
  else if byte = 102 then [12]
  else if byte = 118 then [11]
  else if byte = 92 ∨ byte = 39 ∨ byte = 34 then [byte]
  else if byte = 48 then [0]
  else 92 :: codePointBytes byte.toNat

/-- The loop of `parse_string_literal`; fuel counts its turns. -/
def parseStringFrom (quote : UInt8) : ℕ → Bytes → Bytes → Option (Bytes × Bytes)
  | 0, _, _ => none
  | _ + 1, _, [] => none
  | fuel + 1, text, byte :: rest =>
      if byte = quote then some (text, rest)
      else if byte = 92 then
        match rest with
        | [] => parseStringFrom quote fuel (text ++ [92]) []
        | 120 :: rest =>
            match rest with
            | high :: low :: after =>
                parseStringFrom quote fuel
                  (text ++ ((parseHex 256 [high, low]).map codePointBytes).getD []) after
            | _ => parseStringFrom quote fuel text (rest.drop 1)
        | 117 :: 123 :: rest =>
            let hex := rest.takeWhile fun byte => byte ≠ 125
            parseStringFrom quote fuel
              (text ++ ((parseHex (2 ^ 32) hex).map codePointBytes).getD [])
              ((rest.dropWhile fun byte => byte ≠ 125).drop 1)
        | 117 :: rest =>
            if 4 ≤ rest.length then
              parseStringFrom quote fuel
                (text ++ ((parseHex (2 ^ 32) (rest.take 4)).map codePointBytes).getD [])
                (rest.drop 4)
            else parseStringFrom quote fuel text (rest.drop 1)
        | escaped :: rest => parseStringFrom quote fuel (text ++ escapedByte escaped) rest
      else parseStringFrom quote fuel (text ++ codePointBytes byte.toNat) rest

/-- `parse_string_literal`, on an input that starts with a quote. -/
def parseStringLiteral : Bytes → Option (Bytes × Bytes)
  | [] => none
  | quote :: rest => parseStringFrom quote (rest.length + 1) [] rest

/-- The operator of a level of binary operators at the front of the input. -/
def matchOp : List (Bytes × OpCode) → Bytes → Option (OpCode × Bytes)
  | [], _ => none
  | (seq, op) :: ops, input =>
      match consumeSeq seq input with
      | some rest => some (op, rest)
      | none => matchOp ops input

/-- The operators of `parse_comparison`, in the order in which they are tried. -/
def comparisonOps : List (Bytes × OpCode) :=
  [([61, 61, 61], .strictEq), ([33, 61, 61], .strictNeq), ([61, 61], .eq), ([33, 61], .neq),
    ([60, 61], .le), ([62, 61], .ge), ([60], .lt), ([62], .gt)]

/-- The operators of `parse_term`. -/
def termOps : List (Bytes × OpCode) := [([42], .mul), ([47], .div), ([37], .mod)]

/-! ## Expressions -/

/-- What a parser leaves: the code so far and the rest of the input. -/
abbrev Parsed := Option (StmtCompiler × Bytes)

/-- Store the value on the stack in a local, and leave it there. -/
def StmtCompiler.storeLocal (sc : StmtCompiler) (slot : UInt32) : StmtCompiler :=
  ((sc.emitOp .dup).emitInst .storeLocal slot).emitOp .drop

mutual

/-- `parse_comma`. -/
def parseComma : ℕ → StmtCompiler → Bytes → Parsed
  | 0, _, _ => none
  | fuel + 1, sc, input => do
      let (sc, input) ← parseConditional fuel sc input
      parseCommaRest fuel sc input

/-- The loop of `parse_comma`. -/
def parseCommaRest : ℕ → StmtCompiler → Bytes → Parsed
  | 0, _, _ => none
  | fuel + 1, sc, input =>
      match consume 44 (skipWs input) with
      | none => some (sc, skipWs input)
      | some input => do
          let (sc, input) ← parseConditional fuel (sc.emitOp .drop) input
          parseCommaRest fuel sc input

/-- `parse_conditional`. -/
def parseConditional : ℕ → StmtCompiler → Bytes → Parsed
  | 0, _, _ => none
  | fuel + 1, sc, input => do
      let (sc, input) ← parseLogicalOr fuel sc input
      match consume 63 (skipWs input) with
      | none => some (sc, skipWs input)
      | some input => do
          let jumpIfFalse := sc.func.code.length
          let (sc, input) ← parseConditional fuel (sc.emitOp .jumpIfFalse) input
          let jumpEnd := sc.func.code.length
          let sc := (sc.emitOp .jump).patchJump jumpIfFalse
          let input ← consume 58 (skipWs input)
          let (sc, input) ← parseConditional fuel sc input
          some (sc.patchJump jumpEnd, input)

/-- `parse_logical_or`. -/
def parseLogicalOr : ℕ → StmtCompiler → Bytes → Parsed
  | 0, _, _ => none
  | fuel + 1, sc, input => do
      let (sc, input) ← parseLogicalAnd fuel sc input
      parseLogicalOrRest fuel sc input

/-- The loop of `parse_logical_or`. -/
def parseLogicalOrRest : ℕ → StmtCompiler → Bytes → Parsed
  | 0, _, _ => none
  | fuel + 1, sc, input =>
      match consumeSeq [124, 124] (skipWs input) with
      | none => some (sc, skipWs input)
      | some input => do
          let (sc, input) ← parseLogicalAnd fuel sc input
          parseLogicalOrRest fuel (sc.emitOp .or) input

/-- `parse_logical_and`. -/
def parseLogicalAnd : ℕ → StmtCompiler → Bytes → Parsed
  | 0, _, _ => none
  | fuel + 1, sc, input => do
      let (sc, input) ← parseComparison fuel sc input
      parseLogicalAndRest fuel sc input

/-- The loop of `parse_logical_and`. -/
def parseLogicalAndRest : ℕ → StmtCompiler → Bytes → Parsed
  | 0, _, _ => none
  | fuel + 1, sc, input =>
      match consumeSeq [38, 38] (skipWs input) with
      | none => some (sc, skipWs input)
      | some input => do
          let (sc, input) ← parseComparison fuel sc input
          parseLogicalAndRest fuel (sc.emitOp .and) input

/-- `parse_comparison`. -/
def parseComparison : ℕ → StmtCompiler → Bytes → Parsed
  | 0, _, _ => none
  | fuel + 1, sc, input => do
      let (sc, input) ← parseAssignment fuel sc input
      parseComparisonRest fuel sc input

/-- The loop of `parse_comparison`. -/
def parseComparisonRest : ℕ → StmtCompiler → Bytes → Parsed
  | 0, _, _ => none
  | fuel + 1, sc, input =>
      match matchOp comparisonOps (skipWs input) with
      | none => some (sc, skipWs input)
      | some (op, input) => do
          let (sc, input) ← parseAssignment fuel sc input
          parseComparisonRest fuel (sc.emitOp op) input

/-- `parse_assignment`. -/
def parseAssignment : ℕ → StmtCompiler → Bytes → Parsed
  | 0, _, _ => none
  | fuel + 1, sc, input =>
      let start := skipWs input
      match parseIdentifier start with
      | none => parseExpr fuel sc start
      | some (name, input) =>
          let input := skipWs input
          match consumeSeq [43, 61] input with
          | some input =>
              match sc.findLocal name with
              | some slot => do
                  let (sc, input) ← parseExpr fuel (sc.emitInst .loadLocal slot) input
                  some ((sc.emitOp .add).storeLocal slot, input)
              | none => do
                  let (sc, input) ←
                    parseExpr fuel (StmtCompiler.emitOn .loadGlobal (sc.addStringConst name)) input
                  let sc := sc.emitOp .add
                  some (StmtCompiler.emitOn .storeGlobal (sc.addStringConst name), input)
          | none =>
              match consumeSeq [45, 61] input with
              | some input =>
                  match sc.findLocal name with
                  | some slot => do
                      let (sc, input) ← parseExpr fuel (sc.emitInst .loadLocal slot) input
                      some ((sc.emitOp .sub).storeLocal slot, input)
                  | none => none
              | none =>
                  match consume 61 input with
                  | none => parseExpr fuel sc start
                  | some input =>
                      if check 61 input then parseExpr fuel sc start
                      else do
                        let (sc, input) ← parseAssignment fuel sc input
                        match sc.findLocal name with
                        | some slot => some (sc.storeLocal slot, input)
                        | none =>
                            some (StmtCompiler.emitOn .storeGlobal (sc.addStringConst name), input)

/-- `parse_expr`. -/
def parseExpr : ℕ → StmtCompiler → Bytes → Parsed
  | 0, _, _ => none
  | fuel + 1, sc, input => do
      let (sc, input) ← parseTerm fuel sc input
      parseExprRest fuel sc input

/-- The loop of `parse_expr`. -/
def parseExprRest : ℕ → StmtCompiler → Bytes → Parsed
  | 0, _, _ => none
  | fuel + 1, sc, input =>
      match consume 43 (skipWs input) with
      | some input =>
          if check 43 input then none
          else do
            let (sc, input) ← parseTerm fuel sc input
            parseExprRest fuel (sc.emitOp .add) input
      | none =>
          match consume 45 (skipWs input) with
          | some input =>
              if check 45 input then none
              else do
                let (sc, input) ← parseTerm fuel sc input
                parseExprRest fuel (sc.emitOp .sub) input
          | none => some (sc, skipWs input)

/-- `parse_term`. -/
def parseTerm : ℕ → StmtCompiler → Bytes → Parsed
  | 0, _, _ => none
  | fuel + 1, sc, input => do
      let (sc, input) ← parseFactor fuel sc input
      parseTermRest fuel sc input

/-- The loop of `parse_term`. -/
def parseTermRest : ℕ → StmtCompiler → Bytes → Parsed
  | 0, _, _ => none
  | fuel + 1, sc, input =>
      match matchOp termOps (skipWs input) with
      | none => some (sc, skipWs input)
      | some (op, input) => do
          let (sc, input) ← parseFactor fuel sc input
          parseTermRest fuel (sc.emitOp op) input

/-- `parse_factor`. -/
def parseFactor : ℕ → StmtCompiler → Bytes → Parsed
  | 0, _, _ => none
  | fuel + 1, sc, input =>
      let input := skipWs input
      match consume 43 input with
      | some input => parseFactor fuel sc input
      | none =>
          match matchOp [([45], .neg), ([33], .not), ([126], .bitNot)] input with
          | some (op, input) => do
              let (sc, input) ← parseFactor fuel sc input
              some (sc.emitOp op, input)
          | none => parsePostfix fuel sc input

/-- `parse_postfix`. -/
def parsePostfix : ℕ → StmtCompiler → Bytes → Parsed
  | 0, _, _ => none
  | fuel + 1, sc, input => do
      let (sc, input) ← parsePrimary fuel sc input
      parsePostfixRest fuel sc input

/-- The loop of `parse_postfix`. -/
def parsePostfixRest : ℕ → StmtCompiler → Bytes → Parsed
  | 0, _, _ => none
  | fuel + 1, sc, input =>
      let input := skipWs input
      match consume 46 input with
      | some input => do
          let (prop, input) ← parseIdentifier input
          match consume 40 (skipWs input) with
          | some input => do
              let sc := ((sc.emitOp .dup).emitStringConst prop).emitOp .getProp
              let (argc, sc, input) ← parseArguments fuel sc input
              parsePostfixRest fuel (sc.emitInst .callMethod argc) input
          | none =>
              parsePostfixRest fuel ((sc.emitStringConst prop).emitOp .getProp) (skipWs input)
      | none =>
          match consume 91 input with
          | some input => do
              let (sc, input) ← parseComma fuel sc input
              let input ← consume 93 (skipWs input)
              parsePostfixRest fuel (sc.emitOp .getElem) input
          | none =>
              match consume 40 input with
              | some input => do
                  let (argc, sc, input) ← parseArguments fuel sc input
                  parsePostfixRest fuel (sc.emitInst .call argc) input
              | none => some (sc, input)

/-- The arguments of a call, up to the closing parenthesis, and their number. -/
def parseArguments : ℕ → StmtCompiler → Bytes → Option (UInt32 × StmtCompiler × Bytes)
  | 0, _, _ => none
  | fuel + 1, sc, input =>
      if check 41 (skipWs input) then
        (consume 41 (skipWs input)).map fun input => (0, sc, input)
      else do
        let (sc, input) ← parseConditional fuel sc (skipWs input)
        parseArgumentsRest fuel 1 sc input

/-- The loop over the further arguments. -/
def parseArgumentsRest :
    ℕ → UInt32 → StmtCompiler → Bytes → Option (UInt32 × StmtCompiler × Bytes)
  | 0, _, _, _ => none
  | fuel + 1, argc, sc, input =>
      match consume 44 (skipWs input) with
      | none => (consume 41 (skipWs input)).map fun input => (argc, sc, input)
      | some input => do
          let (sc, input) ← parseConditional fuel sc input
          parseArgumentsRest fuel (argc + 1) sc input

/-- `parse_primary`. -/
def parsePrimary : ℕ → StmtCompiler → Bytes → Parsed
  | 0, _, _ => none
  | fuel + 1, sc, input =>
      let input := skipWs input
      match consume 40 input with
      | some input => do
          let (sc, input) ← parseComma fuel sc input
          let input ← consume 41 (skipWs input)
          some (sc, input)
      | none =>
          if check 39 input ∨ check 34 input then
            (parseStringLiteral input).map fun (text, input) => (sc.emitStringConst text, input)
          else if input.head?.any fun byte => isAsciiDigit byte || byte = 46 then
            (parseNumber input).map fun (number, input) => (sc.emitConst number, input)
          else
            match parseIdentifier input with
            | none => none
            | some (name, input) =>
                if name = asBytes "true" then
                  some (StmtCompiler.emitOn .const (sc.pushConst (.bool true)), input)
                else if name = asBytes "false" then
                  some (StmtCompiler.emitOn .const (sc.pushConst (.bool false)), input)
                else if name = asBytes "null" then
                  some (StmtCompiler.emitOn .const (sc.pushConst .null), input)
                else if name = asBytes "undefined" then
                  some (StmtCompiler.emitOn .const sc.addUndefinedConst, input)
                else if name = asBytes "Number" then
                  match consume 40 (skipWs input) with
                  | some input => do
                      let (sc, input) ← parseComma fuel sc input
                      let input ← consume 41 (skipWs input)
                      some (sc.emitOp .toNumber, input)
                  | none =>
                      some (StmtCompiler.emitOn .loadGlobal (sc.addStringConst name),
                        skipWs input)
                else
                  match sc.findLocal name with
                  | some slot => some (sc.emitInst .loadLocal slot, input)
                  | none =>
                      some (StmtCompiler.emitOn .loadGlobal (sc.addStringConst name), input)

end

/-! ## Statements -/

/-- `compile_full_expr`. -/
def compileFullExpr (fuel : ℕ) (sc : StmtCompiler) (src : Bytes) : Option StmtCompiler :=
  match parseComma fuel sc src with
  | none => none
  | some (sc, rest) => if (skipWs rest).isEmpty then some sc else none

/-- `compile_var_decl`. -/
def compileVarDecl (fuel : ℕ) (sc : StmtCompiler) (rest : Bytes) : Option StmtCompiler :=
  let rest := trim rest
  match findAssignmentEq rest with
  | some position => do
      let name := trim (rest.take position)
      let expr := trim (rest.drop (position + 1))
      if isValidIdentifier name then
        let (slot, sc) := sc.ensureLocal name
        let sc ← compileFullExpr fuel sc expr
        some ((sc.emitInst .storeLocal slot).emitOp .drop)
      else none
  | none =>
      let name := trim (trimEndMatches 59 rest)
      if isValidIdentifier name then some (sc.ensureLocal name).2 else none

/-- The slot of a local that a text names, white space around it allowed. -/
def namedLocal (sc : StmtCompiler) (text : Bytes) : Option UInt32 :=
  if isValidIdentifier (trim text) then sc.findLocal (trim text) else none

/-- The slot and the amount of an update by one: `++` or `--` after or before a
local. -/
def incUpdate (sc : StmtCompiler) (update : Bytes) : Option (UInt32 × UInt32) :=
  if update.length < 3 then none
  else
    let shorter := update.length - 2
    let step (amount : UInt32) (name : Bytes) (isMarked : Bool) : Option (UInt32 × UInt32) :=
      if isMarked then (namedLocal sc name).map fun slot => (slot, amount) else none
    (step 1 (update.take shorter) (update.drop shorter = [43, 43])).orElse fun _ =>
      (step 0xFFFFFFFF (update.take shorter) (update.drop shorter = [45, 45])).orElse fun _ =>
        (step 1 (update.drop 2) (update.take 2 = [43, 43])).orElse fun _ =>
          step 0xFFFFFFFF (update.drop 2) (update.take 2 = [45, 45])

/-- The slot and the amount of an update by a number, after an operator. -/
def addUpdate (sc : StmtCompiler) (update seq : Bytes) (amount : Int32 → Int32) :
    Option (UInt32 × UInt32) :=
  (findSeqFrom seq 0 update).bind fun position =>
    (namedLocal sc (update.take position)).bind fun slot =>
      (parseI32 (trim (update.drop (position + 2)))).map fun number =>
        (slot, (amount number).toUInt32)

/-- `try_compile_inc_update`: the update of a loop that is one instruction. -/
def tryCompileIncUpdate (sc : StmtCompiler) (update : Bytes) : Option StmtCompiler :=
  let update := trim update
  ((incUpdate sc update).orElse fun _ =>
    (addUpdate sc update [43, 61] id).orElse fun _ =>
      addUpdate sc update [45, 61] Neg.neg).map fun (slot, amount) =>
        sc.push .incLocal slot amount

/-- The last part of a loop header. -/
def compileUpdate (fuel : ℕ) (sc : StmtCompiler) (update : Bytes) : Option StmtCompiler :=
  let update := trim update
  if update.isEmpty then some sc
  else
    match tryCompileIncUpdate sc update with
    | some sc => some sc
    | none => (compileFullExpr fuel sc update).map fun sc => sc.emitOp .drop

/-- The first part of a loop header. -/
def compileInit (fuel : ℕ) (sc : StmtCompiler) (init : Bytes) : Option StmtCompiler :=
  let init := trim init
  if init.isEmpty then some sc
  else
    match stripPrefix (asBytes "var ") init with
    | some rest => compileVarDecl fuel sc rest
    | none => (compileFullExpr fuel sc init).map fun sc => sc.emitOp .drop

/-- The condition of a loop, which may be missing. -/
def compileCondition (fuel : ℕ) (sc : StmtCompiler) (cond : Bytes) :
    Option (Option StmtCompiler) :=
  if (trim cond).isEmpty then some none else (compileFullExpr fuel sc (trim cond)).map some

/-- Text that starts with a keyword and a blank, or with a keyword and an opening
parenthesis. -/
def startsWithKeyword (keyword text : Bytes) : Bool :=
  (keyword ++ [32]).isPrefixOf text || (keyword ++ [40]).isPrefixOf text

/-- The parenthesised text after a keyword, and the text after it. -/
def keywordHeader (keyword text : Bytes) : Option (Bytes × Bytes) := do
  let rest ← stripPrefix keyword text
  let rest ← consume 40 (trim rest)
  let close ← findMatchingParen rest
  some (rest.take close, trim (rest.drop (close + 1)))

/-- An expression that may be missing, as the operand of `return`. -/
def compileReturn (fuel : ℕ) (sc : StmtCompiler) (expr : Bytes) : Option StmtCompiler :=
  if expr.isEmpty then
    some ((StmtCompiler.emitOn .const sc.addUndefinedConst).emitOp .return)
  else (compileFullExpr fuel sc expr).map fun sc => sc.emitOp .return

mutual

/-- `compile_stmt`. -/
def compileStmt : ℕ → StmtCompiler → Bytes → Option StmtCompiler
  | 0, _, _ => none
  | fuel + 1, sc, stmt =>
      let text := trim stmt
      if text.isEmpty then some sc
      else
        match stripPrefix (asBytes "var ") text with
        | some rest => compileVarDecl fuel sc rest
        | none =>
            if text = asBytes "return" then compileReturn fuel sc []
            else if (asBytes "return ").isPrefixOf text ∨
                (asBytes "return\t").isPrefixOf text then
              compileReturn fuel sc (trim (text.drop 7))
            else if startsWithKeyword (asBytes "for") text then compileForLoop fuel sc text
            else if startsWithKeyword (asBytes "if") text then compileIfStmt fuel sc text
            else (compileFullExpr fuel sc text).map fun sc => sc.emitOp .drop

/-- The statements of a body, one after the other. -/
def compileBody : ℕ → StmtCompiler → List Bytes → Option StmtCompiler
  | 0, _, _ => none
  | _ + 1, sc, [] => some sc
  | fuel + 1, sc, stmt :: rest => do
      let sc ← compileStmt fuel sc stmt
      compileBody fuel sc rest

/-- `compile_for_loop`. -/
def compileForLoop : ℕ → StmtCompiler → Bytes → Option StmtCompiler
  | 0, _, _ => none
  | fuel + 1, sc, text => do
      let (header, after) ← keywordHeader (asBytes "for") text
      let (init, cond, update) ← splitForHeader header
      let sc ← compileInit fuel sc init
      let loopStart := sc.here
      let condition ← compileCondition fuel sc cond
      let body ← extractBracedBody after
      match condition with
      | none => do
          let sc ← compileBody fuel sc (simpleSplitStatements body)
          let sc ← compileUpdate fuel sc update
          some (sc.emitInst .jump loopStart)
      | some sc => do
          let position := sc.func.code.length
          let sc ← compileBody fuel (sc.emitOp .jumpIfFalse) (simpleSplitStatements body)
          let sc ← compileUpdate fuel sc update
          some ((sc.emitInst .jump loopStart).patchJump position)

/-- `compile_if_stmt`. -/
def compileIfStmt : ℕ → StmtCompiler → Bytes → Option StmtCompiler
  | 0, _, _ => none
  | fuel + 1, sc, text => do
      let (cond, after) ← keywordHeader (asBytes "if") text
      let sc ← compileFullExpr fuel sc cond
      let jumpElse := sc.func.code.length
      let body ← extractBracedBody after
      let sc ← compileBody fuel (sc.emitOp .jumpIfFalse) (simpleSplitStatements body)
      match findElseAfterBrace after with
      | none => some (sc.patchJump jumpElse)
      | some otherwise => do
          let otherwise := trim otherwise
          let jumpEnd := sc.func.code.length
          let sc := (sc.emitOp .jump).patchJump jumpElse
          (if startsWithKeyword (asBytes "if") otherwise then compileIfStmt fuel sc otherwise
            else (extractBracedBody otherwise).bind fun body =>
              compileBody fuel sc (simpleSplitStatements body)).map fun sc =>
                sc.patchJump jumpEnd

end

/-- `compile_stmts`, for a compiler to which the parameters have been added. -/
def compileStmts (fuel : ℕ) (sc : StmtCompiler) (stmts : List Bytes) : Option StmtCompiler :=
  (compileBody fuel sc (stmts.map trim)).map fun sc =>
    (StmtCompiler.emitOn .const sc.addUndefinedConst).emitOp .return

/-- `is_simple_string_literal`. -/
def isSimpleStringLiteral (text : Bytes) : Bool :=
  2 ≤ text.length &&
    ((text.head? = some 34 && text.getLast? = some 34) ||
      (text.head? = some 39 && text.getLast? = some 39))

/-- `compile_program`. -/
def compileProgram (fuel : ℕ) (ctx : Context) (src : Bytes) : Option StmtCompiler :=
  let text := trim src
  if isSimpleStringLiteral text then
    let (value, ctx) := ctx.newString ((text.take (text.length - 1)).drop 1)
    some ⟨ctx, ⟨[⟨.const, 0, 0⟩, ⟨.return, 0, 0⟩], [value], []⟩⟩
  else (compileFullExpr fuel (.new ctx) text).map fun sc => sc.emitOp .return

end Script
end MuonJs
