import MuonJs.Script.Equality
import MuonJs.Script.WellFormed

/-!
# Updates of loops

`try_compile_inc_update` makes one instruction, `IncLocal`, of the update of a loop that
adds a constant to a local.  The texts that it takes, what they mean in the language, and
what the instruction leaves in the local.
-/

namespace MuonJs
namespace Script

open Cache (Bytes F64 asBytes isAsciiDigit natBytes digitsValue parseI64 toI64)

/-! ## Updates of the language -/

/-- White space and line ends. -/
def IsEsBlank (text : Bytes) : Prop :=
  ∃ spaces : List Bytes, (∀ space ∈ spaces, space ∈ esWhiteSpaces) ∧ text = spaces.flatten

/-- The line ends. -/
def lineEnds : List Bytes := [[10], [13], [0xE2, 0x80, 0xA8], [0xE2, 0x80, 0xA9]]

/-- White space without a line end. -/
def IsEsGap (text : Bytes) : Prop :=
  ∃ spaces : List Bytes, (∀ space ∈ spaces, space ∈ esWhiteSpaces ∧ space ∉ lineEnds) ∧
    text = spaces.flatten

/-- An integer with a sign before it; no digit follows a leading zero. -/
structure Constant where
  sign : Option Bool
  digits : Bytes
  areDigits : digits.all isAsciiDigit = true
  notEmpty : digits ≠ []
  isPlain : digits.head? = some 48 → digits = [48]

namespace Constant

variable (constant : Constant)

/-- The text of a constant. -/
def bytes : Bytes := signBytes constant.sign ++ constant.digits

/-- A minus sign is before the digits. -/
def isNegative : Bool := constant.sign = some true

/-- The integer. -/
def value : ℤ :=
  if constant.isNegative then -digitsNumber constant.digits else digitsNumber constant.digits

/-- The number, which is a zero with a sign for `-0`. -/
def number : F64 :=
  if constant.isNegative then (F64.ofInt (digitsNumber constant.digits)).neg
  else F64.ofInt (digitsNumber constant.digits)

end Constant

/-- The text of an integer as a number. -/
def integerText (value : ℤ) : Bytes :=
  if value < 0 then 45 :: natBytes value.natAbs else natBytes value.natAbs

/-- An update, downwards or upwards: by one, or by a constant. -/
inductive Update
  | step (down : Bool)
  | assign (down : Bool) (constant : Constant)

namespace Update

/-- An update downwards. -/
def isDown : Update → Bool
  | .step down | .assign down _ => down

/-- The integer that is added or subtracted. -/
def operand : Update → ℤ
  | .step _ => 1
  | .assign _ constant => constant.value

/-- The number that is added or subtracted. -/
def operandNumber : Update → F64
  | .step _ => F64.ofInt 1
  | .assign _ constant => constant.number

/-- The result for an integer. -/
def exact (u : Update) (n : ℤ) : ℤ := if u.isDown then n - u.operand else n + u.operand

/-- The result for a number. -/
def apply (u : Update) (x : F64) : F64 :=
  if u.isDown then F64.sub x u.operandNumber else F64.add x u.operandNumber

end Update

/-- The character of an operator, `-` or `+`. -/
def signByte (down : Bool) : UInt8 := if down then 45 else 43

/-- A text is an update of a name: `i++`, `i--`, `++i`, `--i`, `i += n`, `i -= n`. -/
inductive Writes : Bytes → Bytes → Update → Prop
  | after (down : Bool) {front name gap behind : Bytes} (isFront : IsEsBlank front)
      (isName : isValidIdentifier name = true) (isGap : IsEsGap gap) (isBehind : IsEsBlank behind) :
      Writes (front ++ (name ++ (gap ++ ([signByte down, signByte down] ++ behind)))) name
        (.step down)
  | before (down : Bool) {front gap name behind : Bytes} (isFront : IsEsBlank front)
      (isGap : IsEsBlank gap) (isName : isValidIdentifier name = true)
      (isBehind : IsEsBlank behind) :
      Writes (front ++ ([signByte down, signByte down] ++ (gap ++ (name ++ behind)))) name
        (.step down)
  | assign (down : Bool) (constant : Constant) {front name gap space behind : Bytes}
      (isFront : IsEsBlank front) (isName : isValidIdentifier name = true) (isGap : IsEsBlank gap)
      (isSpace : IsEsBlank space) (isBehind : IsEsBlank behind) :
      Writes (front ++ (name ++ (gap ++ ([signByte down, 61] ++
        (space ++ (constant.bytes ++ behind)))))) name (.assign down constant)

/-! ## The visible part of an update -/

/-- An update without white space; what follows an assignment operator is any text. -/
inductive Shape
  | after (down : Bool) (name : Bytes)
  | before (down : Bool) (name : Bytes)
  | assign (down : Bool) (name rest : Bytes)

namespace Shape

/-- The text of a shape. -/
def bytes : Shape → Bytes
  | .after down name => name ++ [signByte down, signByte down]
  | .before down name => [signByte down, signByte down] ++ name
  | .assign down name rest => name ++ ([signByte down, 61] ++ rest)

/-- The name in a shape. -/
def name : Shape → Bytes
  | .after _ name | .before _ name | .assign _ name _ => name

/-- A shape is an update. -/
def IsUpdate : Shape → Update → Prop
  | .after down _, u => u = .step down
  | .before down _, u => u = .step down
  | .assign down _ rest, u => ∃ constant : Constant, rest = constant.bytes ∧ u = .assign down constant

/-- The amount that the compiler takes from a shape. -/
def HasAmount : Shape → UInt32 → Prop
  | .after down _, amount => amount = if down then 0xFFFFFFFF else 1
  | .before down _, amount => amount = if down then 0xFFFFFFFF else 1
  | .assign down _ rest, amount =>
      ∃ n, parseI32 rest = some n ∧ amount = (if down then -n else n).toUInt32

end Shape

theorem filter_flatten_esWhiteSpaces {spaces : List Bytes}
    (areSpaces : ∀ space ∈ spaces, space ∈ esWhiteSpaces) :
    spaces.flatten.filter isGraphic = [] := by
  rw [List.filter_eq_nil_iff]
  intro byte isByte
  obtain ⟨space, isSpace, isIn⟩ := List.mem_flatten.mp isByte
  rw [(areBlank_esWhiteSpaces space (areSpaces space isSpace)).2 byte isIn]
  exact Bool.false_ne_true

theorem IsEsBlank.filter {text : Bytes} (isBlank : IsEsBlank text) : text.filter isGraphic = [] := by
  obtain ⟨spaces, areSpaces, rfl⟩ := isBlank
  exact filter_flatten_esWhiteSpaces areSpaces

theorem IsEsGap.isEsBlank {text : Bytes} (isGap : IsEsGap text) : IsEsBlank text := by
  obtain ⟨spaces, areSpaces, isText⟩ := isGap
  exact ⟨spaces, fun space isSpace => (areSpaces space isSpace).1, isText⟩

theorem isGraphic_of_isIdentByte : ∀ byte : UInt8, isIdentByte byte = true →
    isGraphic byte = true ∧ byte ≠ 43 ∧ byte ≠ 45 ∧ byte ≠ 61 := by
  intro byte isIdent
  simp [isIdentByte, isIdentStart, isGraphic, isAsciiDigit, UInt8.le_iff_toNat_le,
    ← UInt8.toNat_inj] at *
  omega

theorem isIdentByte_of_isValidIdentifier {name : Bytes} (isName : isValidIdentifier name = true) :
    name ≠ [] ∧ ∀ byte ∈ name, isIdentByte byte = true := by
  cases name with
  | nil => cases isName
  | cons first rest =>
      obtain ⟨isStart, areRest⟩ := Bool.and_eq_true_iff.mp isName
      refine ⟨List.cons_ne_nil _ _, List.forall_mem_cons.mpr ⟨?_, List.all_eq_true.mp areRest⟩⟩
      rw [isIdentByte, isStart, Bool.true_or]

theorem isVisible_of_isValidIdentifier {name : Bytes} (isName : isValidIdentifier name = true) :
    IsVisible name :=
  fun byte isByte =>
    (isGraphic_of_isIdentByte byte ((isIdentByte_of_isValidIdentifier isName).2 byte isByte)).1

theorem IsVisible.filter {text : Bytes} (visible : IsVisible text) :
    text.filter isGraphic = text :=
  List.filter_eq_self.mpr visible

theorem filter_trim (text : Bytes) : (trim text).filter isGraphic = text.filter isGraphic :=
  filter_dropPatterns_reverse areBlank_whiteSpaces text

theorem Constant.isVisible_bytes (constant : Constant) : IsVisible constant.bytes :=
  (isVisible_signBytes constant.sign).append (isVisible_of_all constant.areDigits)

/-- The visible part of an update of the language. -/
theorem Writes.shape {text name : Bytes} {u : Update} (writes : Writes text name u) :
    ∃ shape : Shape, text.filter isGraphic = shape.bytes ∧ shape.name = name ∧
      isValidIdentifier name = true ∧ shape.IsUpdate u := by
  cases writes with
  | after down isFront isName isGap isBehind =>
      refine ⟨.after down name, ?_, rfl, isName, rfl⟩
      rw [List.filter_append, List.filter_append, List.filter_append, List.filter_append,
        isFront.filter, (isVisible_of_isValidIdentifier isName).filter, isGap.isEsBlank.filter,
        isBehind.filter]
      cases down <;> rfl
  | before down isFront isGap isName isBehind =>
      refine ⟨.before down name, ?_, rfl, isName, rfl⟩
      rw [List.filter_append, List.filter_append, List.filter_append, List.filter_append,
        isFront.filter, (isVisible_of_isValidIdentifier isName).filter, isGap.filter,
        isBehind.filter, List.append_nil]
      cases down <;> rfl
  | assign down constant isFront isName isGap isSpace isBehind =>
      refine ⟨.assign down name constant.bytes, ?_, rfl, isName, constant, rfl, rfl⟩
      rw [List.filter_append, List.filter_append, List.filter_append, List.filter_append,
        List.filter_append, List.filter_append, isFront.filter,
        (isVisible_of_isValidIdentifier isName).filter, isGap.filter, isSpace.filter,
        constant.isVisible_bytes.filter, isBehind.filter, List.append_nil]
      cases down <;> rfl

/-- Names that end where a byte follows that is no part of a name. -/
theorem names_eq {name other rest otherRest : Bytes} {byte otherByte : UInt8}
    (isName : ∀ byte ∈ name, isIdentByte byte = true)
    (isOther : ∀ byte ∈ other, isIdentByte byte = true) (ends : isIdentByte byte = false)
    (otherEnds : isIdentByte otherByte = false)
    (same : name ++ byte :: rest = other ++ otherByte :: otherRest) :
    name = other ∧ byte = otherByte ∧ rest = otherRest := by
  induction name generalizing other with
  | nil =>
      cases other with
      | nil => exact ⟨rfl, List.cons.inj same⟩
      | cons first others =>
          have isFirst := isOther first List.mem_cons_self
          rw [← (List.cons.inj same).1, ends] at isFirst
          cases isFirst
  | cons first name ih =>
      cases other with
      | nil =>
          have isFirst := isName first List.mem_cons_self
          rw [(List.cons.inj same).1, otherEnds] at isFirst
          cases isFirst
      | cons otherFirst others =>
          obtain ⟨sameFirst, sameRest⟩ := List.cons.inj same
          obtain ⟨sameName, sameEnd⟩ := ih (fun byte isByte => isName byte (.tail _ isByte))
            (fun byte isByte => isOther byte (.tail _ isByte)) sameRest
          exact ⟨by rw [sameFirst, sameName], sameEnd⟩

theorem signByte_injective {down other : Bool} (same : signByte down = signByte other) :
    down = other := by
  revert same
  cases down <;> cases other <;> decide

theorem isIdentByte_signByte (down : Bool) : isIdentByte (signByte down) = false := by
  cases down <;> rfl

theorem signByte_ne (down : Bool) : signByte down ≠ 61 := by
  cases down <;> decide

/-- Shapes of the same text are the same. -/
theorem Shape.bytes_injective {shape other : Shape}
    (isName : isValidIdentifier shape.name = true)
    (isOther : isValidIdentifier other.name = true) (same : shape.bytes = other.bytes) :
    shape = other := by
  obtain ⟨notEmpty, areIdent⟩ := isIdentByte_of_isValidIdentifier isName
  obtain ⟨otherNotEmpty, otherIdent⟩ := isIdentByte_of_isValidIdentifier isOther
  have notBefore {name rest otherRest : Bytes} {down : Bool} (notEmpty : name ≠ [])
      (areIdent : ∀ byte ∈ name, isIdentByte byte = true) :
      name ++ rest ≠ signByte down :: otherRest := by
    intro same
    cases name with
    | nil => exact notEmpty rfl
    | cons first name =>
        have isFirst := areIdent first List.mem_cons_self
        rw [(List.cons.inj same).1, isIdentByte_signByte] at isFirst
        cases isFirst
  cases shape with
  | after down name =>
      cases other with
      | after otherDown otherName =>
          obtain ⟨sameName, sameSign, -⟩ := names_eq areIdent otherIdent (isIdentByte_signByte down)
            (isIdentByte_signByte otherDown) same
          rw [signByte_injective sameSign, show name = otherName from sameName]
      | before otherDown otherName => exact absurd same (notBefore notEmpty areIdent)
      | assign otherDown otherName rest =>
          obtain ⟨-, -, sameRest⟩ := names_eq areIdent otherIdent (isIdentByte_signByte down)
            (isIdentByte_signByte otherDown) same
          exact absurd (List.cons.inj sameRest).1 (signByte_ne down)
  | before down name =>
      cases other with
      | after otherDown otherName => exact absurd same.symm (notBefore otherNotEmpty otherIdent)
      | before otherDown otherName =>
          obtain ⟨sameSign, sameRest⟩ := List.cons.inj same
          rw [signByte_injective sameSign, show name = otherName from (List.cons.inj sameRest).2]
      | assign otherDown otherName rest =>
          exact absurd same.symm (notBefore otherNotEmpty otherIdent)
  | assign down name rest =>
      cases other with
      | after otherDown otherName =>
          obtain ⟨-, -, sameRest⟩ := names_eq areIdent otherIdent (isIdentByte_signByte down)
            (isIdentByte_signByte otherDown) same
          exact absurd (List.cons.inj sameRest).1.symm (signByte_ne otherDown)
      | before otherDown otherName => exact absurd same (notBefore notEmpty areIdent)
      | assign otherDown otherName otherRest =>
          obtain ⟨sameName, sameSign, sameRest⟩ := names_eq areIdent otherIdent
            (isIdentByte_signByte down) (isIdentByte_signByte otherDown) same
          rw [signByte_injective sameSign, show name = otherName from sameName,
            show rest = otherRest from (List.cons.inj sameRest).2]

theorem signBytes_some (down : Bool) : signBytes (some down) = [signByte down] := by
  cases down <;> rfl

theorem Constant.bytes_injective {constant other : Constant}
    (same : constant.bytes = other.bytes) : constant = other := by
  obtain ⟨sign, digits, areDigits, notEmpty, isPlain⟩ := constant
  obtain ⟨otherSign, otherDigits, areOther, otherNotEmpty, otherPlain⟩ := other
  have noSign {digits rest : Bytes} {down : Bool} (areDigits : digits.all isAsciiDigit = true)
      (notEmpty : digits ≠ []) : digits ≠ signByte down :: rest := by
    rintro rfl
    have isDigit := (Bool.and_eq_true_iff.mp areDigits).1
    revert isDigit
    cases down <;> decide
  have sameBytes : signBytes sign ++ digits = signBytes otherSign ++ otherDigits := same
  have parts : sign = otherSign ∧ digits = otherDigits := by
    cases sign with
    | none =>
        cases otherSign with
        | none => exact ⟨rfl, sameBytes⟩
        | some otherDown =>
            rw [signBytes_some] at sameBytes
            exact absurd sameBytes (noSign areDigits notEmpty)
    | some down =>
        rw [signBytes_some] at sameBytes
        cases otherSign with
        | none => exact absurd sameBytes.symm (noSign areOther otherNotEmpty)
        | some otherDown =>
            rw [signBytes_some] at sameBytes
            obtain ⟨sameSign, sameDigits⟩ := List.cons.inj sameBytes
            exact ⟨congrArg some (signByte_injective sameSign), sameDigits⟩
  obtain ⟨rfl, rfl⟩ := parts
  rfl

/-- A text is an update in one way. -/
theorem Writes.unique {text name other : Bytes} {u w : Update} (writes : Writes text name u)
    (writesOther : Writes text other w) : name = other ∧ u = w := by
  obtain ⟨shape, isText, rfl, isName, isUpdate⟩ := writes.shape
  obtain ⟨otherShape, isOtherText, rfl, isOther, isOtherUpdate⟩ := writesOther.shape
  obtain rfl := Shape.bytes_injective isName isOther (isText.symm.trans isOtherText)
  refine ⟨rfl, ?_⟩
  cases shape with
  | after down name | before down name =>
      cases isUpdate
      cases isOtherUpdate
      rfl
  | assign down name rest =>
      obtain ⟨constant, isRest, rfl⟩ := isUpdate
      obtain ⟨otherConstant, isOtherRest, rfl⟩ := isOtherUpdate
      rw [Constant.bytes_injective (isRest.symm.trans isOtherRest)]

/-! ## The texts that the compiler takes -/

/-- A name before which and behind which there is white space. -/
theorem namedLocal_spec {sc : StmtCompiler} {text : Bytes} {slot : UInt32}
    (isNamed : namedLocal sc text = some slot) :
    isValidIdentifier (text.filter isGraphic) = true ∧
      sc.findLocal (text.filter isGraphic) = some slot := by
  unfold namedLocal at isNamed
  split at isNamed
  case isTrue isName =>
    rw [← filter_trim, (isVisible_of_isValidIdentifier isName).filter]
    exact ⟨isName, isNamed⟩
  case isFalse => cases isNamed

theorem findSeqFrom_spec {seq text : Bytes} {index position : ℕ} (nonempty : seq ≠ [])
    (isFound : findSeqFrom seq index text = some position) :
    index ≤ position ∧ ∃ rest, text = text.take (position - index) ++ (seq ++ rest) := by
  induction text generalizing index with
  | nil =>
      rw [findSeqFrom, if_neg (by rwa [List.isEmpty_iff])] at isFound
      cases isFound
  | cons byte text ih =>
      unfold findSeqFrom at isFound
      split at isFound
      case isTrue isPrefix =>
        cases isFound
        obtain ⟨rest, isRest⟩ := List.isPrefixOf_iff_prefix.mp isPrefix
        refine ⟨le_rfl, rest, ?_⟩
        rw [Nat.sub_self, List.take_zero, List.nil_append, isRest]
      case isFalse =>
        obtain ⟨isLess, rest, isText⟩ := ih isFound
        refine ⟨by omega, rest, ?_⟩
        rw [show position - index = position - (index + 1) + 1 by omega, List.take_succ_cons,
          List.cons_append, ← isText]

/-- Texts that are read as integers are visible. -/
theorem isVisible_of_parseI32 {text : Bytes} {n : Int32} (isRead : parseI32 text = some n) :
    IsVisible text := by
  obtain ⟨value, isValue, -⟩ := Option.bind_eq_some_iff.mp isRead
  have ofDigits {digits : Bytes} {total : ℕ} (isTotal : digitsValue digits = some total) :
      IsVisible digits :=
    isVisible_of_all (of_digitsValue isTotal).2.1
  unfold parseI64 at isValue
  split at isValue
  case h_1 digits =>
    obtain ⟨total, isTotal, -⟩ := Option.bind_eq_some_iff.mp isValue
    exact List.forall_mem_cons.mpr ⟨rfl, ofDigits isTotal⟩
  case h_2 digits =>
    obtain ⟨total, isTotal, -⟩ := Option.bind_eq_some_iff.mp isValue
    exact List.forall_mem_cons.mpr ⟨rfl, ofDigits isTotal⟩
  case h_3 =>
    obtain ⟨total, isTotal, -⟩ := Option.bind_eq_some_iff.mp isValue
    exact ofDigits isTotal

/-- The shape of an update by one that the compiler takes. -/
theorem shape_of_incUpdate {sc : StmtCompiler} {update : Bytes} {slot amount : UInt32}
    (isTaken : incUpdate sc update = some (slot, amount)) :
    ∃ shape : Shape, update.filter isGraphic = shape.bytes ∧ isValidIdentifier shape.name = true ∧
      sc.findLocal shape.name = some slot ∧ shape.HasAmount amount := by
  have step {name : Bytes} {isMarked : Bool} {shape : Bytes → Shape} {amount' : UInt32}
      (isShape : isMarked = true →
        update.filter isGraphic = (shape (name.filter isGraphic)).bytes)
      (sameName : ∀ name, (shape name).name = name)
      (hasAmount : ∀ name, (shape name).HasAmount amount')
      (isStep : (if isMarked then (namedLocal sc name).map fun slot => (slot, amount') else none) =
        some (slot, amount)) :
      ∃ shape : Shape, update.filter isGraphic = shape.bytes ∧
        isValidIdentifier shape.name = true ∧ sc.findLocal shape.name = some slot ∧
        shape.HasAmount amount := by
    split at isStep
    case isTrue isMarked =>
      obtain ⟨slot', isNamed, isPair⟩ := Option.map_eq_some_iff.mp isStep
      cases isPair
      obtain ⟨isName, isLocal⟩ := namedLocal_spec isNamed
      refine ⟨shape (name.filter isGraphic), isShape isMarked, ?_, ?_, hasAmount _⟩
      · rwa [sameName]
      · rwa [sameName]
    case isFalse => cases isStep
  have isAfter (down : Bool) {count : ℕ}
      (isMarked : decide (update.drop count = [signByte down, signByte down]) = true) :
      update.filter isGraphic =
        (Shape.after down ((update.take count).filter isGraphic)).bytes := by
    conv_lhs => rw [← List.take_append_drop count update, of_decide_eq_true isMarked]
    rw [List.filter_append, Shape.bytes]
    cases down <;> rfl
  have isBefore (down : Bool)
      (isMarked : decide (update.take 2 = [signByte down, signByte down]) = true) :
      update.filter isGraphic = (Shape.before down ((update.drop 2).filter isGraphic)).bytes := by
    conv_lhs => rw [← List.take_append_drop 2 update, of_decide_eq_true isMarked]
    rw [List.filter_append, Shape.bytes]
    cases down <;> rfl
  unfold incUpdate at isTaken
  dsimp only at isTaken
  split at isTaken
  case isTrue => cases isTaken
  case isFalse =>
    obtain isStep | isLater := orElse_cases isTaken
    · exact step (isAfter false) (fun _ => rfl) (fun _ => rfl) isStep
    obtain isStep | isLater := orElse_cases isLater
    · exact step (isAfter true) (fun _ => rfl) (fun _ => rfl) isStep
    obtain isStep | isStep := orElse_cases isLater
    · exact step (isBefore false) (fun _ => rfl) (fun _ => rfl) isStep
    · exact step (isBefore true) (fun _ => rfl) (fun _ => rfl) isStep

/-- The shape of an update by a constant that the compiler takes. -/
theorem shape_of_addUpdate {sc : StmtCompiler} {update : Bytes} {slot amount : UInt32}
    (down : Bool)
    (isTaken : addUpdate sc update [signByte down, 61] (fun n => if down then -n else n) =
      some (slot, amount)) :
    ∃ shape : Shape, update.filter isGraphic = shape.bytes ∧ isValidIdentifier shape.name = true ∧
      sc.findLocal shape.name = some slot ∧ shape.HasAmount amount := by
  obtain ⟨position, isFound, later⟩ := Option.bind_eq_some_iff.mp isTaken
  obtain ⟨slot', isNamed, later⟩ := Option.bind_eq_some_iff.mp later
  obtain ⟨n, isNumber, isPair⟩ := Option.map_eq_some_iff.mp later
  cases isPair
  obtain ⟨isName, isLocal⟩ := namedLocal_spec isNamed
  obtain ⟨-, rest, isText⟩ := findSeqFrom_spec (List.cons_ne_nil _ _) isFound
  rw [Nat.sub_zero] at isText
  have isRest : update.drop (position + 2) = rest := by
    have sameLength := congrArg List.length isText
    simp only [List.length_append, List.length_take, List.length_cons, List.length_nil] at sameLength
    rw [← List.drop_drop]
    conv_lhs => rw [isText]
    rw [List.drop_left' (by rw [List.length_take]; omega)]
    rfl
  have sameRest : rest.filter isGraphic = trim rest := by
    rw [isRest] at isNumber
    rw [← filter_trim, (isVisible_of_parseI32 isNumber).filter]
  refine ⟨.assign down ((update.take position).filter isGraphic) (trim rest), ?_, isName, isLocal,
    n, isRest ▸ isNumber, rfl⟩
  conv_lhs => rw [isText]
  rw [List.filter_append, List.filter_append, sameRest, Shape.bytes]
  cases down <;> rfl

/-- The shape of an update that the compiler takes. -/
theorem shape_of_taken {sc : StmtCompiler} {update : Bytes} {slot amount : UInt32}
    (isTaken : tryCompileIncUpdate sc update = some (sc.push .incLocal slot amount)) :
    ∃ shape : Shape, update.filter isGraphic = shape.bytes ∧ isValidIdentifier shape.name = true ∧
      sc.findLocal shape.name = some slot ∧ shape.HasAmount amount := by
  unfold tryCompileIncUpdate at isTaken
  obtain ⟨⟨slot', amount'⟩, isUpdate, isPush⟩ := Option.map_eq_some_iff.mp isTaken
  have sameCode := congrArg (fun sc : StmtCompiler => sc.func.code) isPush
  obtain ⟨-, samePair⟩ := List.append_inj' sameCode rfl
  cases (List.cons.inj samePair).1
  rw [← filter_trim update]
  obtain isInc | isLater := orElse_cases isUpdate
  · exact shape_of_incUpdate isInc
  obtain isAdd | isSub := orElse_cases isLater
  · exact shape_of_addUpdate false isAdd
  · exact shape_of_addUpdate true isSub

/-! ## Constants that are read -/

theorem parseI64_bytes (constant : Constant) : parseI64 constant.bytes = toI64 constant.value := by
  obtain ⟨sign, digits, areDigits, notEmpty, isPlain⟩ := constant
  have isValue := digitsValue_eq areDigits notEmpty
  cases sign with
  | none =>
      change parseI64 digits = toI64 (digitsNumber digits)
      unfold parseI64
      split
      case h_1 => cases (Bool.and_eq_true_iff.mp areDigits).1
      case h_2 => cases (Bool.and_eq_true_iff.mp areDigits).1
      case h_3 => rw [isValue, Option.bind_some]
  | some negative =>
      cases negative with
      | true =>
          change (digitsValue digits).bind _ = toI64 (-digitsNumber digits)
          rw [isValue, Option.bind_some]
      | false =>
          change (digitsValue digits).bind _ = toI64 (digitsNumber digits)
          rw [isValue, Option.bind_some]

theorem parseI32_bytes {constant : Constant} {n : Int32}
    (isRead : parseI32 constant.bytes = some n) :
    n = Int32.ofInt constant.value ∧ -2 ^ 31 ≤ constant.value ∧ constant.value < 2 ^ 31 := by
  obtain ⟨value, isValue, isInt⟩ := Option.bind_eq_some_iff.mp isRead
  rw [parseI64_bytes, toI64] at isValue
  split at isValue
  case isFalse => cases isValue
  case isTrue inRange =>
    cases isValue
    rw [Int64.toInt_ofInt_of_le inRange.1 inRange.2] at isInt
    split at isInt
    case isFalse => cases isInt
    case isTrue fits =>
      cases isInt
      exact ⟨rfl, fits⟩

namespace Update

/-- The amount of an update as an integer of 32 bits; the negation of the least one is
itself. -/
def amount (u : Update) : Int32 :=
  if u.isDown then -Int32.ofInt u.operand else Int32.ofInt u.operand

/-- The constant is an integer of 32 bits. -/
def Fits (u : Update) : Prop := -2 ^ 31 ≤ u.operand ∧ u.operand < 2 ^ 31

end Update

/-- The instruction of an update: it is on the local of the name, by the amount. -/
theorem Writes.instruction {sc : StmtCompiler} {update name : Bytes} {slot amount : UInt32}
    {u : Update} (writes : Writes update name u)
    (isTaken : tryCompileIncUpdate sc update = some (sc.push .incLocal slot amount)) :
    sc.findLocal name = some slot ∧ amount.toInt32 = u.amount ∧ u.Fits := by
  obtain ⟨shape, isText, rfl, isName, isUpdate⟩ := writes.shape
  obtain ⟨other, isOtherText, isOther, isLocal, hasAmount⟩ := shape_of_taken isTaken
  obtain rfl := Shape.bytes_injective isName isOther (isText.symm.trans isOtherText)
  refine ⟨isLocal, ?_⟩
  cases shape with
  | after down name | before down name =>
      cases isUpdate
      cases hasAmount
      exact ⟨by cases down <;> decide, show (-2 ^ 31 : ℤ) ≤ 1 ∧ (1 : ℤ) < 2 ^ 31 by decide⟩
  | assign down name rest =>
      obtain ⟨constant, rfl, rfl⟩ := isUpdate
      obtain ⟨n, isRead, rfl⟩ := hasAmount
      obtain ⟨rfl, fits⟩ := parseI32_bytes isRead
      exact ⟨rfl, fits⟩

end Script

/-! ## Sums of doubles -/

namespace Cache
namespace F64

open Script

theorem Same.symm {x y : F64} (same : Same x y) : Same y x :=
  same.imp Eq.symm And.symm

theorem Same.trans {x y z : F64} (first : Same x y) (second : Same y z) : Same x z := by
  obtain rfl | isNan := first
  · exact second
  obtain rfl | isNan' := second
  · exact .inr isNan
  · exact .inr ⟨isNan.1, isNan'.2⟩

theorem truncate_ofInt {number : ℤ} (small : number.natAbs < 2 ^ 52) :
    (ofInt number).truncate = number := by
  rw [ofInt, truncate_ofMagnitude_roundRatio small]
  by_cases negative : number < 0
  · rw [decide_eq_true negative, if_pos rfl]
    omega
  · rw [decide_eq_false negative, if_neg Bool.false_ne_true]
    omega

theorem neg_ofInt {number : ℤ} (small : number.natAbs < 2 ^ 52) (nonzero : number ≠ 0) :
    (ofInt number).neg = ofInt (-number) := by
  have inRange : roundRatio number.natAbs 1 < 2 ^ 63 :=
    (roundRatio_lt_infinityBits small).trans infinityBits_lt
  rw [ofInt, neg, isNegative_ofMagnitude inRange, magnitude_ofMagnitude inRange, ofInt,
    Int.natAbs_neg, ← decide_not]
  congr 1
  rw [decide_eq_decide]
  omega

section Zero

variable (negative : Bool)

theorem toRat_signedZero : (signedZero negative).toRat = 0 := by
  have isAbs : (signedZero negative).absRat = 0 := by
    have isNothing := absRat_ofMagnitude_roundRatio (show 0 < 2 ^ 52 by decide) negative
    rwa [Nat.cast_zero] at isNothing
  rw [toRat, isAbs, neg_zero, ite_self]

theorem isNan_signedZero : (signedZero negative).isNan = false := by
  cases negative <;> rfl

theorem isInfinite_signedZero : (signedZero negative).isInfinite = false := by
  cases negative <;> rfl

theorem isNegative_signedZero : (signedZero negative).isNegative = negative :=
  isNegative_ofMagnitude (by decide) negative

end Zero

/-- A finite double that denotes zero. -/
theorem eq_signedZero {x : F64} (isZero : x.toRat = 0) : x = signedZero x.isNegative := by
  have noMagnitude : x.magnitude = 0 := by
    have noAbs : x.absRat = 0 := by
      unfold toRat at isZero
      split at isZero
      · exact neg_eq_zero.mp isZero
      · exact isZero
    have noSignificand : x.significand = 0 := by
      have positive : (0 : ℚ) < 2 ^ ((max (x.magnitude / 2 ^ 52) 1 : ℕ) - 1075 : ℤ) := by
        positivity
      exact Nat.cast_eq_zero.mp ((mul_eq_zero.mp noAbs).resolve_right positive.ne')
    unfold significand at noSignificand
    split at noSignificand <;> omega
  rw [ext_iff, isNegative_signedZero]
  exact ⟨rfl, noMagnitude.trans (magnitude_ofMagnitude (by decide) _).symm⟩

/-- The sign of a zero that is added matters for a zero with a minus sign only. -/
theorem same_add_zero_iff (x : F64) :
    Same (add x (signedZero false)) (add x (signedZero true)) ↔ x ≠ signedZero true := by
  simp only [add, isNan_signedZero, isInfinite_signedZero, isNegative_signedZero,
    toRat_signedZero, Bool.or_false, Bool.false_and, Bool.and_false, Bool.and_true, add_zero,
    Bool.false_eq_true, if_false]
  have notZero (special : x.isNan = true ∨ x.isInfinite = true) : x ≠ signedZero true := by
    rintro rfl
    rw [isNan_signedZero, isInfinite_signedZero] at special
    exact special.elim Bool.false_ne_true Bool.false_ne_true
  by_cases isNan : x.isNan = true
  · rw [if_pos isNan, if_pos isNan]
    exact iff_of_true (.refl _) (notZero (.inl isNan))
  rw [if_neg isNan, if_neg isNan]
  by_cases isInfinite : x.isInfinite = true
  · rw [if_pos isInfinite, if_pos isInfinite]
    exact iff_of_true (.refl _) (notZero (.inr isInfinite))
  rw [if_neg isInfinite, if_neg isInfinite]
  by_cases isZero : x.toRat = 0
  · have isSigned := eq_signedZero isZero
    rw [isZero, round_zero, round_zero]
    cases sign : x.isNegative with
    | false =>
        refine iff_of_true (.refl _) fun isNegative => ?_
        rw [isNegative, isNegative_signedZero] at sign
        cases sign
    | true =>
        rw [sign] at isSigned
        refine iff_of_false ?_ (not_not.mpr isSigned)
        rintro (same | isNan)
        · have sameSign := congrArg F64.isNegative same
          rw [isNegative_signedZero, isNegative_signedZero] at sameSign
          cases sameSign
        · rw [isNan_signedZero] at isNan
          cases isNan.1
  · refine iff_of_true ?_ ?_
    · rw [round, round, if_neg isZero, if_neg isZero]
      exact .refl _
    · rintro rfl
      exact isZero (toRat_signedZero true)

end F64
end Cache

namespace Script

open Cache (Bytes F64 asBytes)

/-! ## What an update leaves -/

/-- `IncLocal` of a value that is no integer. -/
def vmIncrement (conversions : Conversions) (ctx : Context) (old : JSValue) (amount : Int32) :
    Computed × Context :=
  match ctx.jsToNumber conversions old with
  | (none, ctx) => (.error .exception, ctx)
  | (some n, ctx) =>
      let (value, ctx) := ctx.numberToValue (F64.add n (i32AsF64 amount))
      (.value value, ctx)

/-- What an update comes to. -/
inductive UpdateResult
  | number (value : F64)
  | text (bytes : Bytes)
  | throws

namespace Update

/-- What `+=` puts behind a text. -/
def suffix : Update → Option Bytes
  | .assign false constant => some (integerText constant.value)
  | _ => none

/-- The result of an update of a primitive value. -/
def Gives (u : Update) : EsValue → UpdateResult → Prop
  | .object _, result => result = .throws
  | .string text, result =>
      (∃ suffix, u.suffix = some suffix ∧ result = .text (text ++ suffix)) ∨
        u.suffix = none ∧ ∃ x, TextNumber text x ∧ result = .number (u.apply x)
  | value, result => ∃ x, value.IsNumber x ∧ result = .number (u.apply x)

/-- The result of an update of a value, where an object has the primitive value that
`language` gives, or its conversion throws. -/
def GivesFor (u : Update) (language : ℕ → Option EsValue) : EsValue → UpdateResult → Prop
  | .object address, result =>
      match language address with
      | none => result = .throws
      | some value => u.Gives value result
  | value, result => u.Gives value result

/-- A zero with a minus sign is added. -/
def AddsNegativeZero : Update → Prop
  | .step _ => False
  | .assign down constant => constant.value = 0 ∧ constant.isNegative ≠ down

/-- The least integer is subtracted. -/
def SubtractsLeast : Update → Prop
  | .assign true constant => constant.value = -2 ^ 31
  | _ => False

/-- A number for which the sum is wrong. -/
def NumberDeviates (u : Update) (x : F64) : Prop :=
  u.AddsNegativeZero ∧ x = .signedZero true ∨
    u.SubtractsLeast ∧
      ¬F64.Same (F64.add x (F64.ofInt (-2 ^ 31))) (F64.add x (F64.ofInt (2 ^ 31)))

/-- There is no memory for the sum. -/
def NoRoom (u : Update) (ctx : Context) (x : F64) : Prop :=
  (ctx.numberToValue (F64.add x (i32AsF64 u.amount))).1 = .exception

/-- The number of a primitive value that the language changes: a text has none where
something is put behind it. -/
def TakesNumber (u : Update) : EsValue → F64 → Prop
  | .string text, y => u.suffix = none ∧ TextNumber text y
  | value, y => value.IsNumber y

/-- A primitive value that is changed by its number where that is wrong. -/
def PrimitiveDeviates (u : Update) (ctx : Context) : EsValue → Prop
  | .string text =>
      u.suffix ≠ none ∨ u.NoRoom ctx (stringToNumber text) ∨
        ¬∃ x, TextNumber text x ∧
          F64.Same (F64.add (stringToNumber text) (i32AsF64 u.amount)) (u.apply x)
  | value => ∃ x, value.IsNumber x ∧ (u.NoRoom ctx x ∨ u.NumberDeviates x)

/-- An object for which the code throws and the language does not, or which the code
changes by a number: without memory for the sum, or where the sum is not the one with the
number of the primitive value in the language. -/
def ObjectDeviates (u : Update) (conversions : Conversions) (ctx : Context)
    (language : ℕ → Option EsValue) (address : ℕ) : Prop :=
  match ctx.jsToNumber conversions (.ptr address) with
  | (none, _) => ∃ value, language address = some value ∧ value.tag < 5
  | (some x, after) =>
      u.NoRoom after x ∨
        ¬∃ value y, language address = some value ∧ u.TakesNumber value y ∧
          F64.Same (F64.add x (i32AsF64 u.amount)) (u.apply y)

/-- A value that is not changed as in the language: an integer whose result is not one of
32 bits, or another value that deviates. -/
def Deviates (u : Update) (conversions : Conversions) (ctx : Context)
    (language : ℕ → Option EsValue) : JSValue → EsValue → Prop
  | .int n, _ => ¬(-2 ^ 31 ≤ u.exact n.toInt ∧ u.exact n.toInt < 2 ^ 31)
  | _, .object address => u.ObjectDeviates conversions ctx language address
  | _, value => u.PrimitiveDeviates ctx value

end Update

/-- Go on with a new value in a local. -/
def VmState.goOnWith (state : VmState) (slot : UInt32) (value : JSValue) (ctx : Context) : Outcome :=
  { state with locals := state.locals.set slot.toNat value }.goOn state.stack ctx

/-- A local is left with a result, or the run ends with an exception. -/
def VmState.Leaves (state : VmState) (slot : UInt32) (outcome : Outcome) : UpdateResult → Prop
  | .number x => ∃ value ctx, outcome = state.goOnWith slot value ctx ∧ ctx.Denotes value x
  | .text bytes =>
      ∃ value ctx, outcome = state.goOnWith slot value ctx ∧ ctx.stringBytes value = some bytes
  | .throws => ∃ ctx, outcome = .returned .exception ctx

/-! ## Sums -/

section Sums

variable {u : Update}

/-- The number of a constant. -/
theorem Constant.number_eq {constant : Constant} (low : -2 ^ 31 ≤ constant.value) :
    constant.number =
      if constant.isNegative = true ∧ constant.value = 0 then .signedZero true
      else F64.ofInt constant.value := by
  unfold Constant.number
  unfold Constant.value at low ⊢
  by_cases negative : constant.isNegative = true
  · rw [if_pos negative] at low
    rw [if_pos negative, if_pos negative]
    by_cases isZero : -(digitsNumber constant.digits : ℤ) = 0
    · rw [if_pos ⟨negative, isZero⟩, neg_eq_zero.mp isZero]
      rfl
    · rw [if_neg fun both => isZero both.2, F64.neg_ofInt (by omega) (by omega)]
  · rw [if_neg negative, if_neg negative, if_neg fun both => negative both.1]

/-- The number that is added. -/
def Update.addend (u : Update) : F64 := if u.isDown then u.operandNumber.neg else u.operandNumber

theorem Update.apply_eq (u : Update) (x : F64) : u.apply x = F64.add x u.addend := by
  rw [Update.apply, Update.addend]
  split <;> rfl

/-- The negation of an integer of 32 bits. -/
theorem toInt_neg_ofInt {number : ℤ} (low : -2 ^ 31 ≤ number) (high : number < 2 ^ 31) :
    (-Int32.ofInt number).toInt = if number = -2 ^ 31 then -2 ^ 31 else -number := by
  rw [Int32.toInt_neg, Int32.toInt_ofInt_of_le low high, Int.bmod]
  split <;> split <;> omega

/-- The number that is added and the amount of the instruction. -/
theorem addend_eq (fits : u.Fits) :
    (u.AddsNegativeZero → u.addend = .signedZero true ∧ i32AsF64 u.amount = .signedZero false) ∧
    (¬u.AddsNegativeZero → ¬u.SubtractsLeast → u.addend = i32AsF64 u.amount) ∧
    (u.SubtractsLeast → u.addend = F64.ofInt (2 ^ 31) ∧ i32AsF64 u.amount = F64.ofInt (-2 ^ 31)) := by
  cases u with
  | step down => exact ⟨False.elim, fun _ _ => by cases down <;> decide +kernel, by cases down <;> exact False.elim⟩
  | assign down constant =>
      obtain ⟨low, high⟩ := fits
      change -2 ^ 31 ≤ constant.value at low
      change constant.value < 2 ^ 31 at high
      have number := constant.number_eq low
      have amount := i32AsF64_ofInt low high
      change (constant.value = 0 ∧ constant.isNegative ≠ down → _) ∧
        (¬(constant.value = 0 ∧ constant.isNegative ≠ down) → _) ∧ _
      cases down with
      | false =>
          change (_ → constant.number = _ ∧ i32AsF64 (Int32.ofInt constant.value) = _) ∧
            (_ → _ → constant.number = i32AsF64 (Int32.ofInt constant.value)) ∧ _
          rw [amount, number]
          refine ⟨?_, ?_, False.elim⟩
          · rintro ⟨isZero, negative⟩
            rw [isZero, if_pos ⟨Bool.eq_true_of_not_eq_false negative, rfl⟩]
            exact ⟨rfl, rfl⟩
          · intro notNegative _
            rw [if_neg]
            rintro ⟨negative, isZero⟩
            exact notNegative ⟨isZero, by rw [negative]; decide⟩
      | true =>
          have negated := toInt_neg_ofInt low high
          change (_ → constant.number.neg = _ ∧ i32AsF64 (-Int32.ofInt constant.value) = _) ∧
            (_ → _ → constant.number.neg = i32AsF64 (-Int32.ofInt constant.value)) ∧
            (constant.value = -2 ^ 31 →
              constant.number.neg = _ ∧ i32AsF64 (-Int32.ofInt constant.value) = _)
          rw [← F64.ofInt_toInt, negated, number]
          refine ⟨?_, ?_, ?_⟩
          · rintro ⟨isZero, negative⟩
            rw [if_neg fun both => negative both.1, isZero]
            exact ⟨rfl, rfl⟩
          · intro notNegative notLeast
            rw [if_neg (show ¬constant.value = -2 ^ 31 from notLeast)]
            by_cases isZero : constant.value = 0
            · have negative : constant.isNegative = true :=
                Classical.byContradiction fun positive => notNegative ⟨isZero, positive⟩
              rw [if_pos ⟨negative, isZero⟩, isZero]
              rfl
            · rw [if_neg fun both => isZero both.2, F64.neg_ofInt (by omega) isZero]
          · intro isLeast
            rw [if_neg (by rintro ⟨-, isZero⟩; omega), if_pos isLeast, isLeast]
            exact ⟨F64.neg_ofInt (by decide) (by decide), rfl⟩

/-- The sum of the machine is that of the language when the number does not deviate. -/
theorem same_apply_iff (fits : u.Fits) (x : F64) :
    F64.Same (F64.add x (i32AsF64 u.amount)) (u.apply x) ↔ ¬u.NumberDeviates x := by
  obtain ⟨negativeZero, plain, least⟩ := addend_eq fits
  rw [u.apply_eq, Update.NumberDeviates]
  by_cases isZero : u.AddsNegativeZero
  · have notLeast : ¬u.SubtractsLeast := fun isLeast => by
      have sameBits := congrArg F64.bits ((negativeZero isZero).2.symm.trans (least isLeast).2)
      revert sameBits
      decide +kernel
    rw [(negativeZero isZero).1, (negativeZero isZero).2, F64.same_add_zero_iff, and_iff_right isZero,
      or_iff_left fun both => notLeast both.1]
  · rw [or_iff_right fun both => isZero both.1]
    by_cases isLeast : u.SubtractsLeast
    · rw [(least isLeast).1, (least isLeast).2, and_iff_right isLeast, not_not]
    · rw [plain isZero isLeast]
      exact iff_of_true (.refl _) fun both => isLeast both.1

/-- The result for an integer. -/
theorem same_apply_int (fits : u.Fits) (n : Int32) :
    F64.Same (u.apply (i32AsF64 n)) (F64.ofInt (u.exact n.toInt)) := by
  obtain ⟨low, high⟩ := fits
  have isOperand : i32AsF64 (Int32.ofInt u.operand) = F64.ofInt u.operand := i32AsF64_ofInt low high
  have toOperand := Int32.toInt_ofInt_of_le low high
  have onPlain (isPlain : u.operandNumber = F64.ofInt u.operand) :
      F64.Same (u.apply (i32AsF64 n)) (F64.ofInt (u.exact n.toInt)) := by
    rw [Update.apply, Update.exact, isPlain, ← isOperand]
    split
    · rw [F64.sub_i32AsF64, toOperand]
      exact .refl _
    · rw [F64.add_i32AsF64, toOperand]
      exact .refl _
  cases u with
  | step down => exact onPlain rfl
  | assign down constant =>
      have number := Constant.number_eq (show -2 ^ 31 ≤ constant.value from low)
      split at number
      case isFalse => exact onPlain number
      case isTrue isZero =>
        have notZero : i32AsF64 n ≠ .signedZero true := by
          intro same
          have sign := congrArg F64.isNegative same
          have truncated := congrArg F64.truncate same
          rw [F64.isNegative_i32AsF64, F64.isNegative_signedZero, decide_eq_true_iff] at sign
          have isNothing : (F64.signedZero true).truncate = 0 :=
            F64.truncate_ofMagnitude_roundRatio (show 0 < 2 ^ 52 by decide) true
          rw [F64.truncate_i32AsF64, isNothing] at truncated
          omega
        have isSame := (F64.same_add_zero_iff (i32AsF64 n)).mpr notZero
        have isInt : F64.add (i32AsF64 n) (.signedZero false) = F64.ofInt n.toInt := by
          have isAdd := F64.add_i32AsF64 n 0
          rwa [Int32.toInt_zero, Int.add_zero] at isAdd
        cases down with
        | false =>
            change F64.Same (F64.add (i32AsF64 n) constant.number)
              (F64.ofInt (n.toInt + constant.value))
            rw [number, isZero.2, Int.add_zero, ← isInt]
            exact isSame.symm
        | true =>
            change F64.Same (F64.add (i32AsF64 n) constant.number.neg)
              (F64.ofInt (n.toInt - constant.value))
            rw [number, isZero.2, Int.sub_zero, ← isInt]
            exact .refl _

/-- The sum of integers is that of the language when it does not wrap. -/
theorem same_int_iff (fits : u.Fits) (n : Int32) :
    F64.Same (i32AsF64 (n + u.amount)) (u.apply (i32AsF64 n)) ↔
      -2 ^ 31 ≤ u.exact n.toInt ∧ u.exact n.toInt < 2 ^ 31 := by
  have isExact := same_apply_int fits n
  obtain ⟨low, high⟩ := fits
  have atLeast := Int32.le_toInt n
  have lessThan := Int32.toInt_lt n
  have isSum : (n + u.amount).toInt = (u.exact n.toInt).bmod (2 ^ 32) := by
    rw [Int32.toInt_add, Update.amount, Update.exact]
    split
    · rw [toInt_neg_ofInt low high]
      split
      case isTrue isLeast =>
        rw [isLeast, show n.toInt - -2 ^ 31 = n.toInt + -2 ^ 31 + (2 ^ 32 : ℕ) by omega,
          Int.add_bmod_right]
      case isFalse => rw [Int.sub_eq_add_neg]
    · rw [Int32.toInt_ofInt_of_le low high]
  have small : (u.exact n.toInt).natAbs < 2 ^ 52 := by
    rw [Update.exact]
    split <;> omega
  have sameInt : F64.Same (i32AsF64 (n + u.amount)) (F64.ofInt (u.exact n.toInt)) ↔
      (n + u.amount).toInt = u.exact n.toInt := by
    constructor
    · rintro (same | isNan)
      · have truncated := congrArg F64.truncate same
        rwa [F64.truncate_i32AsF64, F64.truncate_ofInt small] at truncated
      · rw [F64.isNan_i32AsF64] at isNan
        cases isNan.1
    · intro same
      rw [← F64.ofInt_toInt, same]
      exact .refl _
  have onResult : F64.Same (i32AsF64 (n + u.amount)) (u.apply (i32AsF64 n)) ↔
      F64.Same (i32AsF64 (n + u.amount)) (F64.ofInt (u.exact n.toInt)) :=
    ⟨fun same => same.trans isExact, fun same => same.trans isExact.symm⟩
  rw [onResult, sameInt, isSum, Int.bmod]
  split <;> omega

end Sums

/-! ## The instruction -/

section Instruction

variable {conversions : Conversions} {host : Host} {func : BytecodeFunction} {state : VmState}
  {slot : UInt32} {u : Update} {v : JSValue} {va : EsValue}

/-- What is left by a step that sets the local. -/
theorem leaves_goOnWith_iff (isLocal : state.locals[slot.toNat]? = some v) (value : JSValue)
    (ctx : Context) (result : UpdateResult) :
    state.Leaves slot (state.goOnWith slot value ctx) result ↔
      (∃ x, result = .number x ∧ ctx.Denotes value x) ∨
        ∃ bytes, result = .text bytes ∧ ctx.stringBytes value = some bytes := by
  have inRange : slot.toNat < state.locals.length := (List.getElem?_eq_some_iff.mp isLocal).1
  have unique {other : JSValue} {after : Context}
      (same : state.goOnWith slot value ctx = state.goOnWith slot other after) :
      value = other ∧ ctx = after := by
    have sameState := Outcome.next.inj same
    have sameLocals := congrArg (fun state : VmState => state.locals[slot.toNat]?) sameState
    dsimp only at sameLocals
    rw [List.getElem?_set_self inRange, List.getElem?_set_self inRange] at sameLocals
    exact ⟨Option.some.inj sameLocals, congrArg VmState.ctx sameState⟩
  cases result with
  | number x =>
      constructor
      · rintro ⟨other, after, same, denotes⟩
        obtain ⟨rfl, rfl⟩ := unique same
        exact .inl ⟨x, rfl, denotes⟩
      · rintro (⟨y, isNumber, denotes⟩ | ⟨bytes, isText, -⟩)
        · cases isNumber
          exact ⟨value, ctx, rfl, denotes⟩
        · cases isText
  | text bytes =>
      constructor
      · rintro ⟨other, after, same, isText⟩
        obtain ⟨rfl, rfl⟩ := unique same
        exact .inr ⟨bytes, rfl, isText⟩
      · rintro (⟨y, isNumber, -⟩ | ⟨other, isBytes, isText⟩)
        · cases isNumber
        · cases isBytes
          exact ⟨value, ctx, rfl, isText⟩
  | throws =>
      refine iff_of_false ?_ ?_
      · rintro ⟨after, same⟩
        cases same
      · rintro (⟨y, isNumber, -⟩ | ⟨bytes, isText, -⟩)
        · cases isNumber
        · cases isText

/-- A number that is made a value. -/
theorem denotes_numberToValue_iff (ctx : Context) (y z : F64) :
    (ctx.numberToValue y).2.Denotes (ctx.numberToValue y).1 z ↔
      (ctx.numberToValue y).1 ≠ .exception ∧ F64.Same y z := by
  obtain ⟨value, after, isPushed, denotes⟩ := pushes_pushNumber ctx y
  cases isPushed
  constructor
  · rintro ⟨held, isHeld, same⟩
    have notException : (ctx.numberToValue y).1 ≠ .exception := by
      intro isException
      rw [isException] at isHeld
      cases isHeld
    obtain ⟨other, isOther, sameOther⟩ := denotes.resolve_right fun both => notException both.1
    rw [isHeld] at isOther
    cases isOther
    exact ⟨notException, sameOther.symm.trans same⟩
  · rintro ⟨notException, same⟩
    obtain ⟨held, isHeld, sameHeld⟩ := denotes.resolve_right fun both => notException both.1
    exact ⟨held, isHeld, sameHeld.trans same⟩

/-- A number that is made a value is no text. -/
theorem stringBytes_numberToValue (ctx : Context) (y : F64) :
    (ctx.numberToValue y).2.stringBytes (ctx.numberToValue y).1 = none := by
  unfold Context.numberToValue
  split
  case isTrue => rfl
  case isFalse =>
    unfold Context.newFloat64
    cases allocated : ctx.allocFloat y with
    | none => rfl
    | some pair =>
        obtain ⟨address, after⟩ := pair
        obtain ⟨⟨address', mem⟩, -, isPair⟩ := Option.map_eq_some_iff.mp allocated
        cases isPair
        simp only [Context.stringBytes, Function.update_self]

/-- The step on a value that is no integer. -/
theorem incLocal_of_number (increments : host.increment = vmIncrement conversions)
    (isLocal : state.locals[slot.toNat]? = some v) (notInt : ∀ n, v ≠ .int n) {amount : UInt32}
    {x : F64} {after : Context}
    (isNumber : state.ctx.jsToNumber conversions v = (some x, after)) :
    state.incLocal host slot amount =
      state.goOnWith slot (after.numberToValue (F64.add x (i32AsF64 amount.toInt32))).1
        (after.numberToValue (F64.add x (i32AsF64 amount.toInt32))).2 := by
  have isSum : host.increment state.ctx v amount.toInt32 =
      (.value (after.numberToValue (F64.add x (i32AsF64 amount.toInt32))).1,
        (after.numberToValue (F64.add x (i32AsF64 amount.toInt32))).2) := by
    rw [increments, vmIncrement, isNumber]
  unfold VmState.incLocal
  rw [isLocal]
  cases v with
  | int n => exact absurd rfl (notInt n)
  | _ =>
      dsimp only
      rw [isSum]
      rfl

theorem incLocal_of_exception (increments : host.increment = vmIncrement conversions)
    (isLocal : state.locals[slot.toNat]? = some v) (notInt : ∀ n, v ≠ .int n) {amount : UInt32}
    {after : Context} (isNone : state.ctx.jsToNumber conversions v = (none, after)) :
    state.incLocal host slot amount = .returned .exception after := by
  have isError : host.increment state.ctx v amount.toInt32 = (.error .exception, after) := by
    rw [increments, vmIncrement, isNone]
  unfold VmState.incLocal
  rw [isLocal]
  cases v with
  | int n => exact absurd rfl (notInt n)
  | _ =>
      dsimp only
      rw [isError]

theorem codeNumber_of_tag {value : EsValue} (isPrimitive : value.tag < 5) :
    ∃ x, value.codeNumber = some x := by
  cases value with
  | object address => exact absurd isPrimitive (lt_irrefl 5)
  | _ => exact ⟨_, rfl⟩

/-- The sum is left as a number, where there is memory for it. -/
theorem leaves_sum_iff (isLocal : state.locals[slot.toNat]? = some v) (x : F64) (after : Context)
    (result : UpdateResult) :
    state.Leaves slot
        (state.goOnWith slot (after.numberToValue (F64.add x (i32AsF64 u.amount))).1
          (after.numberToValue (F64.add x (i32AsF64 u.amount))).2) result ↔
      ∃ z, result = .number z ∧ ¬u.NoRoom after x ∧
        F64.Same (F64.add x (i32AsF64 u.amount)) z := by
  have noText (bytes : Bytes) :
      (after.numberToValue (F64.add x (i32AsF64 u.amount))).2.stringBytes
        (after.numberToValue (F64.add x (i32AsF64 u.amount))).1 ≠ some bytes := by
    rw [stringBytes_numberToValue]
    exact (Option.some_ne_none bytes).symm
  rw [leaves_goOnWith_iff isLocal,
    or_iff_left (by rintro ⟨bytes, -, isText⟩; exact noText bytes isText)]
  exact exists_congr fun z => and_congr_right fun _ => denotes_numberToValue_iff after _ z

/-- A primitive value that is changed by its number. -/
theorem leaves_primitive_iff (isLocal : state.locals[slot.toNat]? = some v) (fits : u.Fits)
    {value : EsValue} {x : F64} {after : Context} (isNumber : value.codeNumber = some x) :
    (∃ result, u.Gives value result ∧
        state.Leaves slot
          (state.goOnWith slot (after.numberToValue (F64.add x (i32AsF64 u.amount))).1
            (after.numberToValue (F64.add x (i32AsF64 u.amount))).2) result) ↔
      ¬u.PrimitiveDeviates after value := by
  simp only [leaves_sum_iff isLocal]
  have onNumber (isCode : ∀ y, value.IsNumber y ↔ y = x) :
      (∃ result : UpdateResult, (∃ y, value.IsNumber y ∧ result = .number (u.apply y)) ∧
          ∃ z, result = .number z ∧ ¬u.NoRoom after x ∧
            F64.Same (F64.add x (i32AsF64 u.amount)) z) ↔
        ¬∃ y, value.IsNumber y ∧ (u.NoRoom after y ∨ u.NumberDeviates y) := by
    simp only [isCode, exists_eq_left, not_or, ← same_apply_iff fits x]
    constructor
    · rintro ⟨z, isNumber, hasRoom, same⟩
      cases isNumber
      exact ⟨hasRoom, same⟩
    · rintro ⟨hasRoom, same⟩
      exact ⟨_, rfl, hasRoom, same⟩
  cases value with
  | object address => cases isNumber
  | string text =>
      cases isNumber
      constructor
      · rintro ⟨result, ⟨suffix, -, rfl⟩ | ⟨noSuffix, y, isText, rfl⟩, z, isNumber, hasRoom, same⟩
        · cases isNumber
        · cases isNumber
          rintro (hasSuffix | noRoom | notSame)
          · exact hasSuffix noSuffix
          · exact hasRoom noRoom
          · exact notSame ⟨y, isText, same⟩
      · intro right
        rw [Update.PrimitiveDeviates, not_or, not_or, not_not, not_not] at right
        obtain ⟨noSuffix, hasRoom, y, isText, same⟩ := right
        exact ⟨_, .inr ⟨noSuffix, y, isText, rfl⟩, _, rfl, hasRoom, same⟩
  | undefined | null | bool _ | number _ =>
      cases isNumber
      exact onNumber fun _ => Iff.rfl

/-- The number that an update of a primitive value comes to. -/
theorem gives_number_iff {value : EsValue} {z : F64} :
    u.Gives value (.number z) ↔ ∃ y, u.TakesNumber value y ∧ z = u.apply y := by
  cases value with
  | object address => exact iff_of_false (by rintro ⟨⟩) (by rintro ⟨y, isNumber, -⟩; exact isNumber)
  | string text =>
      constructor
      · rintro (⟨suffix, -, isText⟩ | ⟨noSuffix, y, isNumber, same⟩)
        · cases isText
        · exact ⟨y, ⟨noSuffix, isNumber⟩, UpdateResult.number.inj same⟩
      · rintro ⟨y, ⟨noSuffix, isNumber⟩, rfl⟩
        exact .inr ⟨noSuffix, y, isNumber, rfl⟩
  | undefined | null | bool _ | number _ =>
      exact exists_congr fun y => and_congr_right fun _ => UpdateResult.number.injEq z _ ▸ Iff.rfl

/-- An update of a primitive value does not throw. -/
theorem gives_throws_iff {value : EsValue} : u.Gives value .throws ↔ ¬value.tag < 5 := by
  cases value with
  | object address => exact iff_of_true rfl (lt_irrefl 5)
  | string text =>
      refine iff_of_false ?_ (not_not.mpr (by simp [EsValue.tag]))
      rintro (⟨suffix, -, isText⟩ | ⟨-, y, -, isNumber⟩)
      · cases isText
      · cases isNumber
  | undefined | null | bool _ | number _ =>
      refine iff_of_false ?_ (not_not.mpr (by simp [EsValue.tag]))
      rintro ⟨y, -, isNumber⟩
      cases isNumber

/-- The result of an update of an object. -/
theorem givesFor_object_iff {language : ℕ → Option EsValue} {address : ℕ}
    {result : UpdateResult} :
    u.GivesFor language (.object address) result ↔
      language address = none ∧ result = .throws ∨
        ∃ value, language address = some value ∧ u.Gives value result := by
  change (match language address with
    | none => result = .throws
    | some value => u.Gives value result) ↔ _
  cases language address with
  | none => simp only [true_and, reduceCtorEq, false_and, exists_false, or_false]
  | some value => simp only [reduceCtorEq, false_and, false_or, Option.some.injEq, exists_eq_left']

/-- An object is changed by its number. -/
theorem leaves_object_iff (increments : host.increment = vmIncrement conversions) {address : ℕ}
    (isLocal : state.locals[slot.toNat]? = some (.ptr address)) {amount : UInt32}
    (isAmount : amount.toInt32 = u.amount) (language : ℕ → Option EsValue) :
    (∃ result, u.GivesFor language (.object address) result ∧
        state.Leaves slot (state.incLocal host slot amount) result) ↔
      ¬u.ObjectDeviates conversions state.ctx language address := by
  have notInt : ∀ n, JSValue.ptr address ≠ .int n := fun n => by rintro ⟨⟩
  unfold Update.ObjectDeviates
  cases isNumber : state.ctx.jsToNumber conversions (.ptr address) with
  | mk number after =>
    cases number with
    | none =>
        dsimp only
        rw [incLocal_of_exception increments isLocal notInt isNumber]
        constructor
        · rintro ⟨result, gives, leaves⟩ ⟨value, isValue, isPrimitive⟩
          obtain rfl : result = .throws := by
            cases result with
            | throws => rfl
            | number | text =>
                obtain ⟨held, later, same, -⟩ := leaves
                cases same
          obtain ⟨isNone, -⟩ | ⟨other, isOther, gives⟩ := givesFor_object_iff.mp gives
          · cases isNone.symm.trans isValue
          · cases isOther.symm.trans isValue
            exact gives_throws_iff.mp gives isPrimitive
        · intro right
          refine ⟨.throws, givesFor_object_iff.mpr ?_, after, rfl⟩
          cases isValue : language address with
          | none => exact .inl ⟨rfl, rfl⟩
          | some value =>
              exact .inr ⟨value, rfl, gives_throws_iff.mpr fun isPrimitive =>
                right ⟨value, isValue, isPrimitive⟩⟩
    | some x =>
        dsimp only
        rw [incLocal_of_number increments isLocal notInt isNumber, isAmount]
        simp only [leaves_sum_iff isLocal, not_or, not_not]
        constructor
        · rintro ⟨result, gives, z, rfl, hasRoom, same⟩
          obtain ⟨-, isThrows⟩ | ⟨value, isValue, gives⟩ := givesFor_object_iff.mp gives
          · cases isThrows
          · obtain ⟨y, takes, rfl⟩ := gives_number_iff.mp gives
            exact ⟨hasRoom, value, y, isValue, takes, same⟩
        · rintro ⟨hasRoom, value, y, isValue, takes, same⟩
          exact ⟨_, givesFor_object_iff.mpr (.inr ⟨value, isValue, gives_number_iff.mpr
            ⟨y, takes, rfl⟩⟩), _, rfl, hasRoom, same⟩

/-- The instruction leaves what the language gives exactly when the value does not
deviate. -/
theorem leaves_iff (increments : host.increment = vmIncrement conversions)
    (isLocal : state.locals[slot.toNat]? = some v) (isValue : state.ctx.esValue v = some va)
    {amount : UInt32} (isAmount : amount.toInt32 = u.amount) (fits : u.Fits)
    (language : ℕ → Option EsValue) :
    (∃ result, u.GivesFor language va result ∧
        state.Leaves slot ((Instruction.mk .incLocal slot amount).exec host func state) result) ↔
      ¬u.Deviates conversions state.ctx language v va := by
  change (∃ result, _ ∧ state.Leaves slot (state.incLocal host slot amount) result) ↔ _
  have onPrimitive (isPrimitive : va.tag < 5) (notInt : ∀ n, v ≠ .int n) :
      (∃ result, u.Gives va result ∧
          state.Leaves slot (state.incLocal host slot amount) result) ↔
        ¬u.PrimitiveDeviates state.ctx va := by
    obtain ⟨x, isCode⟩ := codeNumber_of_tag isPrimitive
    have isNumber := @jsToNumber_of_esValue conversions _ _ _ isValue isPrimitive
    rw [isCode] at isNumber
    rw [incLocal_of_number increments isLocal notInt isNumber, isAmount]
    exact leaves_primitive_iff isLocal fits isCode
  cases v with
  | int n =>
      cases isValue
      have isSet : state.incLocal host slot amount =
          state.goOnWith slot (.int (n + u.amount)) state.ctx := by
        unfold VmState.incLocal
        rw [isLocal, ← isAmount]
        rfl
      rw [isSet, Update.Deviates, not_not, ← same_int_iff fits n]
      constructor
      · rintro ⟨result, ⟨y, rfl, rfl⟩, leaves⟩
        obtain ⟨z, isNumber, held, isHeld, same⟩ | ⟨bytes, isText, -⟩ :=
          (leaves_goOnWith_iff isLocal _ _ _).mp leaves
        · cases isNumber
          cases isHeld
          exact same
        · cases isText
      · intro same
        exact ⟨_, ⟨_, rfl, rfl⟩, _, _, rfl, _, rfl, same⟩
  | exception => cases isValue
  | undefined | null =>
      cases isValue
      exact onPrimitive (by decide) fun n => by rintro ⟨⟩
  | bool value =>
      cases isValue
      exact onPrimitive (by simp [EsValue.tag]) fun n => by rintro ⟨⟩
  | ptr address =>
      by_cases isPrimitive : va.tag < 5
      · obtain ⟨number, -, rfl⟩ | ⟨text, -, rfl⟩ | ⟨obj, -, rfl⟩ := esValue_ptr_cases isValue
        · exact onPrimitive isPrimitive fun n => by rintro ⟨⟩
        · exact onPrimitive isPrimitive fun n => by rintro ⟨⟩
        · exact absurd isPrimitive (lt_irrefl 5)
      · obtain ⟨place, rfl⟩ := EsValue.exists_object isPrimitive
        obtain ⟨same, -⟩ := eq_ptr_of_object isValue
        cases same
        exact leaves_object_iff increments isLocal isAmount language

end Instruction

/-! ## The loop variable at the end of its range -/

/-- A compiler with the local `i`. -/
def loopCompiler : StmtCompiler := ⟨Context.new 4096, [], [], [[105]]⟩

/-- A host that increments with conversions. -/
def incrementHost : Host := { Host.inert with increment := vmIncrement plainConversions }

/-- A state in which the first local is an integer. -/
def loopState (n : Int32) : VmState := ⟨0, [], [.int n], Context.new 4096⟩

/-- `i++`. -/
def loopUpdate : Bytes := [105, 43, 43]

theorem loopUpdate_taken :
    tryCompileIncUpdate loopCompiler loopUpdate = some (loopCompiler.push .incLocal 0 1) := by
  rfl

theorem loopUpdate_writes : Writes loopUpdate [105] (.step false) := by
  have isNothing : IsEsBlank [] := ⟨[], by simp, rfl⟩
  exact @Writes.after false [] [105] [] [] isNothing rfl ⟨[], by simp, rfl⟩ isNothing

end Script
end MuonJs
