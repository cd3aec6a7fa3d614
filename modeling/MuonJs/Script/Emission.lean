import MuonJs.Script.Compiler
import MuonJs.Script.Strings

/-!
# What the compiler emits

A step of the compiler appends code that raises the stack by a known amount and
whose operands are in range.  Such steps compose, and the patched jumps of a
choice and of a loop keep to it.  Operands are `u32`, so all of this is about
functions with less than `2 ^ 32` instructions, constants and locals.
-/

namespace MuonJs
namespace Script

open Cache (Bytes F64 asBytes)
open StackCode

/-! ## Growing functions -/

/-- All positions and indices fit the operands. -/
structure BytecodeFunction.Small (func : BytecodeFunction) : Prop where
  code : func.code.length < 2 ^ 32
  constants : func.constants.length < 2 ^ 32
  locals : func.locals.length < 2 ^ 32

/-- A constant that names a global: a string, unless there was no memory for it. -/
def Context.IsName (ctx : Context) (value : JSValue) : Prop :=
  value = .exception ∨ ∃ name, ctx.stringBytes value = some name

/-- What the first operand of an instruction stands for. -/
inductive OperandKind
  | const
  | name
  | slot
  | other

/-- What the first operand of an instruction stands for. -/
def OpCode.operandKind : OpCode → OperandKind
  | .const => .const
  | .loadGlobal | .storeGlobal => .name
  | .loadLocal | .storeLocal | .incLocal => .slot
  | _ => .other

/-- The first operand of an instruction is in range. -/
def Instruction.InRange (ins : Instruction) (sc : StmtCompiler) : Prop :=
  match ins.op.operandKind with
  | .const => ins.a.toNat < sc.func.constants.length
  | .name => ∃ value, sc.func.constants[ins.a.toNat]? = some value ∧ sc.ctx.IsName value
  | .slot => ins.a.toNat < sc.func.locals.length
  | .other => True

namespace StmtCompiler

/-- Constants and locals are added at the end, and memory is allocated. -/
structure Grows (before after : StmtCompiler) : Prop where
  ctx : Context.Keeps before.ctx after.ctx
  constants : before.func.constants <+: after.func.constants
  locals : before.func.locals <+: after.func.locals

namespace Grows

variable {first second third : StmtCompiler}

theorem refl (sc : StmtCompiler) : Grows sc sc :=
  ⟨.refl sc.ctx, List.prefix_rfl, List.prefix_rfl⟩

theorem trans (former : Grows first second) (latter : Grows second third) :
    Grows first third :=
  ⟨former.ctx.trans latter.ctx, former.constants.trans latter.constants,
    former.locals.trans latter.locals⟩

theorem isName (grows : Grows first second) (inUse : first.ctx.CellsInUse)
    {value : JSValue} (isName : first.ctx.IsName value) : second.ctx.IsName value := by
  rcases isName with isException | ⟨name, isText⟩
  · exact .inl isException
  · exact .inr ⟨name, grows.ctx.stringBytes inUse isText⟩

theorem inRange (grows : Grows first second) (inUse : first.ctx.CellsInUse)
    {ins : Instruction} (inRange : ins.InRange first) : ins.InRange second := by
  unfold Instruction.InRange at inRange ⊢
  split at inRange
  · exact inRange.trans_le grows.constants.length_le
  · obtain ⟨value, isConst, isName⟩ := inRange
    refine ⟨value, ?_, grows.isName inUse isName⟩
    obtain ⟨added, isAdded⟩ := grows.constants
    rw [← isAdded, List.getElem?_append_left (List.getElem?_eq_some_iff.mp isConst).1, isConst]
  · exact inRange.trans_le grows.locals.length_le
  · trivial

end Grows

/-- The step appends code that raises the stack from one height to another, on
top of whatever lies below, and whose operands are in range. -/
structure Emits (low high : ℕ) (before after : StmtCompiler) : Prop where
  grows : Grows before after
  longer : before.func.code.length + (high - low) ≤ after.func.code.length
  code : ∃ added, after.func.code = before.func.code ++ added ∧
    (after.func.Small → ∀ base,
      Raises before.func.code.length (added.map Instruction.shape) (base + low) (base + high)) ∧
    (before.ctx.CellsInUse → after.func.Small → ∀ ins ∈ added, ins.InRange after)

theorem Grows.small
    {before after : StmtCompiler} (grows : Grows before after)
    (shorter : before.func.code.length ≤ after.func.code.length)
    (small : after.func.Small) : before.func.Small :=
  ⟨shorter.trans_lt small.code, grows.constants.length_le.trans_lt small.constants,
    grows.locals.length_le.trans_lt small.locals⟩

namespace Emits

variable {low middle high : ℕ} {first second third : StmtCompiler}

theorem small (emits : Emits low high first second) (small : second.func.Small) :
    first.func.Small :=
  emits.grows.small ((Nat.le_add_right _ _).trans emits.longer) small

theorem refl (height : ℕ) (sc : StmtCompiler) : Emits height height sc sc := by
  refine ⟨.refl sc, ?_, [], (List.append_nil _).symm, fun _ base => Raises.nil _ _, ?_⟩
  · rw [Nat.sub_self, Nat.add_zero]
  · intro _ _ ins isAdded
    cases isAdded

/-- Steps compose. -/
theorem trans (former : Emits low middle first second) (latter : Emits middle high second third) :
    Emits low high first third := by
  obtain ⟨added, isSecond, raises, inRange⟩ := former.code
  obtain ⟨added', isThird, raises', inRange'⟩ := latter.code
  refine ⟨former.grows.trans latter.grows, ?_, added ++ added', ?_, ?_, ?_⟩
  · have shorter := former.longer
    have longer := latter.longer
    omega
  · rw [isThird, isSecond, List.append_assoc]
  · intro small base
    have later := raises' small base
    rw [isSecond, List.length_append, ← added.length_map (f := Instruction.shape)] at later
    rw [List.map_append]
    exact (raises (latter.small small) base).append later
  · intro inUse small ins isAdded
    rcases List.mem_append.mp isAdded with isFormer | isLatter
    · exact latter.grows.inRange (former.grows.ctx.inUse inUse)
        (inRange inUse (latter.small small) ins isFormer)
    · exact inRange' (former.grows.ctx.inUse inUse) small ins isLatter

/-- A step does the same on top of a higher stack. -/
theorem lift (emits : Emits low high first second) (more : ℕ) :
    Emits (more + low) (more + high) first second := by
  obtain ⟨added, isSecond, raises, inRange⟩ := emits.code
  refine ⟨emits.grows, ?_, added, isSecond, fun small base => ?_, inRange⟩
  · have longer := emits.longer
    omega
  · rw [← Nat.add_assoc, ← Nat.add_assoc]
    exact raises small (base + more)

end Emits

/-! ## One instruction -/

theorem push_grows (sc : StmtCompiler) (op : OpCode) (a b : UInt32) :
    Grows sc (sc.push op a b) :=
  ⟨.refl sc.ctx, List.prefix_rfl, List.prefix_rfl⟩

/-- An instruction that goes on to the next one, emitted after constants and
locals have been added. -/
theorem push_emits
    {before sc : StmtCompiler} (grows : Grows before sc)
    (sameCode : sc.func.code = before.func.code) (op : OpCode) (a b : UInt32)
    (pops pushes : ℕ) (isShape : Instruction.shape ⟨op, a, b⟩ = ⟨pops, pushes, .next⟩)
    (oneMore : pushes ≤ pops + 1)
    (inRange : before.ctx.CellsInUse → (sc.push op a b).func.Small →
      (⟨op, a, b⟩ : Instruction).InRange (sc.push op a b)) (k : ℕ) :
    Emits (k + pops) (k + pushes) before (sc.push op a b) := by
  have isCode : (sc.push op a b).func.code = before.func.code ++ [⟨op, a, b⟩] := by
    rw [← sameCode]
    rfl
  refine ⟨grows.trans (push_grows sc op a b), ?_, [⟨op, a, b⟩], isCode, ?_, ?_⟩
  · rw [isCode, List.length_append, List.length_singleton]
    omega
  · intro _ base
    rw [List.map_singleton, isShape]
    have enough : pops ≤ base + (k + pops) := by omega
    rw [show base + (k + pushes) = base + (k + pops) - pops + pushes by omega]
    exact Raises.single rfl enough
  · intro inUse small ins isAdded
    rw [List.mem_singleton.mp isAdded]
    exact inRange inUse small

/-- An instruction whose operand is no index. -/
theorem emitInst_emits
    (sc : StmtCompiler) (op : OpCode) (a : UInt32) (pops pushes : ℕ)
    (isShape : Instruction.shape ⟨op, a, 0⟩ = ⟨pops, pushes, .next⟩)
    (oneMore : pushes ≤ pops + 1) (isOther : op.operandKind = .other) (k : ℕ) :
    Emits (k + pops) (k + pushes) sc (sc.emitInst op a) := by
  refine push_emits (.refl sc) rfl _ _ _ _ _ isShape oneMore (fun _ _ => ?_) k
  unfold Instruction.InRange
  rw [isOther]
  trivial

/-! ## Constants and locals -/

/-- A constant has been found or made. -/
structure Made (accepts : Context → JSValue → Prop) (sc : StmtCompiler)
    (made : UInt32 × StmtCompiler) : Prop where
  grows : Grows sc made.2
  code : made.2.func.code = sc.func.code
  index : sc.ctx.CellsInUse → made.2.func.Small →
    ∃ value, made.2.func.constants[made.1.toNat]? = some value ∧ accepts made.2.ctx value

section Made

variable {sc : StmtCompiler} {accepts : Context → JSValue → Prop}

theorem pushConst_made
    {before : StmtCompiler} {value : JSValue} (grows : Grows before sc)
    (sameCode : sc.func.code = before.func.code)
    (isAccepted : before.ctx.CellsInUse → accepts sc.ctx value) :
    Made accepts before (sc.pushConst value) where
  grows := grows.trans ⟨.refl sc.ctx, List.prefix_append _ _, List.prefix_rfl⟩
  code := sameCode
  index := by
    intro inUse small
    refine ⟨value, ?_, isAccepted inUse⟩
    have size : (sc.func.constants ++ [value]).length < 2 ^ 32 := small.constants
    rw [List.length_append, List.length_singleton] at size
    have inRange : sc.func.constants.length < 2 ^ 32 := by omega
    change (sc.func.constants ++ [value])[(UInt32.ofNat sc.func.constants.length).toNat]? = _
    rw [UInt32.toNat_ofNat_of_lt' inRange, List.getElem?_append_right (Nat.le_refl _),
      Nat.sub_self]
    rfl

theorem found_made
    {index : ℕ} {test : JSValue → Bool}
    (isFound : sc.func.constants.findIdx? test = some index)
    (isAccepted : ∀ value, test value = true → accepts sc.ctx value) :
    Made accepts sc (UInt32.ofNat index, sc) where
  grows := .refl sc
  code := rfl
  index := by
    intro _ small
    obtain ⟨inRange, isTested, -⟩ := List.findIdx?_eq_some_iff_getElem.mp isFound
    refine ⟨sc.func.constants[index], ?_, isAccepted _ isTested⟩
    rw [UInt32.toNat_ofNat_of_lt' (inRange.trans small.constants),
      List.getElem?_eq_getElem inRange]

theorem findConst_made
    {before : StmtCompiler} (grows : Grows before sc)
    (sameCode : sc.func.code = before.func.code) (test : JSValue → Bool) (value : JSValue) :
    Made (fun _ _ => True) before (sc.findConst test value) := by
  unfold findConst
  split
  · rename_i index isFound
    have made : Made (fun _ _ => True) sc (UInt32.ofNat index, sc) :=
      found_made isFound fun _ _ => trivial
    exact ⟨grows.trans made.grows, made.code.trans sameCode,
      fun inUse small => made.index (grows.ctx.inUse inUse) small⟩
  · exact pushConst_made grows sameCode fun _ => trivial

end Made

theorem allocation_grows
    {sc : StmtCompiler} {after : Context} (keeps : Context.Keeps sc.ctx after) :
    Grows sc { sc with ctx := after } :=
  ⟨keeps, List.prefix_rfl, List.prefix_rfl⟩

theorem addUndefinedConst_made (sc : StmtCompiler) :
    Made (fun _ _ => True) sc sc.addUndefinedConst :=
  findConst_made (.refl sc) rfl _ _

theorem numberToValue_keeps (ctx : Context) (number : F64) :
    Context.Keeps ctx (ctx.numberToValue number).2 := by
  unfold Context.numberToValue Context.newFloat64 Context.allocFloat
  split
  · exact .refl ctx
  · split
    · rename_i allocated
      exact (Context.allocCell_keeps (by decide) allocated).1
    · exact .refl ctx

theorem addNumberConst_made (sc : StmtCompiler) (number : F64) :
    Made (fun _ _ => True) sc (sc.addNumberConst number) :=
  findConst_made (allocation_grows (numberToValue_keeps sc.ctx number)) rfl _ _

theorem newString_spec (ctx : Context) (text : Bytes) :
    Context.Keeps ctx (ctx.newString text).2 ∧
      (ctx.newString text).2.IsName (ctx.newString text).1 := by
  unfold Context.newString Context.allocString
  split
  · rename_i address after allocated
    obtain ⟨keeps, stored⟩ := Context.allocCell_keeps (by omega) allocated
    refine ⟨keeps, .inr ⟨text, ?_⟩⟩
    rw [Context.stringBytes, stored]
  · exact ⟨.refl ctx, .inl rfl⟩

/-- A string constant names a global, unless there was no memory for it. -/
theorem addStringConst_made (sc : StmtCompiler) (text : Bytes) :
    Made Context.IsName sc (sc.addStringConst text) := by
  unfold addStringConst
  split
  · rename_i isFound
    exact found_made isFound fun value isText => .inr ⟨text, of_decide_eq_true isText⟩
  · obtain ⟨keeps, isName⟩ := newString_spec sc.ctx text
    exact pushConst_made (allocation_grows keeps) rfl fun _ => isName

/-- An instruction on a constant that is found or made. -/
theorem emitOn_emits
    {accepts : Context → JSValue → Prop} {sc : StmtCompiler} {made : UInt32 × StmtCompiler}
    (isMade : Made accepts sc made) (op : OpCode) (pops pushes : ℕ)
    (isShape : Instruction.shape ⟨op, made.1, 0⟩ = ⟨pops, pushes, .next⟩)
    (oneMore : pushes ≤ pops + 1)
    (inRange : ∀ value, made.2.func.constants[made.1.toNat]? = some value →
      accepts made.2.ctx value → (⟨op, made.1, 0⟩ : Instruction).InRange made.2) (k : ℕ) :
    Emits (k + pops) (k + pushes) sc (emitOn op made) := by
  refine push_emits isMade.grows isMade.code _ _ _ _ _ isShape oneMore (fun inUse small => ?_) k
  have smaller : made.2.func.Small :=
    (push_grows made.2 op made.1 0).small
      (List.length_append ▸ Nat.le_add_right _ _) small
  obtain ⟨value, isConst, isAccepted⟩ := isMade.index inUse smaller
  exact inRange value isConst isAccepted

theorem emitOn_const_emits
    {accepts : Context → JSValue → Prop} {sc : StmtCompiler} {made : UInt32 × StmtCompiler}
    (isMade : Made accepts sc made) (k : ℕ) :
    Emits k (k + 1) sc (emitOn .const made) :=
  emitOn_emits isMade .const 0 1 rfl (by decide)
    (fun _ isConst _ => (List.getElem?_eq_some_iff.mp isConst).1) k

theorem emitOn_loadGlobal_emits (sc : StmtCompiler) (name : Bytes) (k : ℕ) :
    Emits k (k + 1) sc (emitOn .loadGlobal (sc.addStringConst name)) :=
  emitOn_emits (addStringConst_made sc name) .loadGlobal 0 1 rfl (by decide)
    (fun value isConst isName => ⟨value, isConst, isName⟩) k

theorem emitOn_storeGlobal_emits (sc : StmtCompiler) (name : Bytes) (k : ℕ) :
    Emits (k + 1) (k + 1) sc (emitOn .storeGlobal (sc.addStringConst name)) :=
  emitOn_emits (addStringConst_made sc name) .storeGlobal 1 1 rfl (by decide)
    (fun value isConst isName => ⟨value, isConst, isName⟩) k

/-- The slot of a local is in range. -/
theorem findLocal_inRange
    {sc : StmtCompiler} {name : Bytes} {slot : UInt32} (isFound : sc.findLocal name = some slot)
    (small : sc.func.Small) : slot.toNat < sc.func.locals.length := by
  obtain ⟨index, isIndex, rfl⟩ := Option.map_eq_some_iff.mp isFound
  obtain ⟨inRange, -⟩ := List.findIdx?_eq_some_iff_getElem.mp isIndex
  rw [UInt32.toNat_ofNat_of_lt' (inRange.trans small.locals)]
  exact inRange

theorem push_small
    {sc : StmtCompiler} {op : OpCode} {a b : UInt32} (small : (sc.push op a b).func.Small) :
    sc.func.Small :=
  (push_grows sc op a b).small (List.length_append ▸ Nat.le_add_right _ _) small

/-- An instruction on a local. -/
theorem onLocal_emits
    (sc : StmtCompiler) (op : OpCode) (slot b : UInt32) (pops pushes : ℕ)
    (isShape : Instruction.shape ⟨op, slot, b⟩ = ⟨pops, pushes, .next⟩)
    (oneMore : pushes ≤ pops + 1) (isSlot : op.operandKind = .slot)
    (inRange : sc.func.Small → slot.toNat < sc.func.locals.length) (k : ℕ) :
    Emits (k + pops) (k + pushes) sc (sc.push op slot b) := by
  refine push_emits (.refl sc) rfl _ _ _ _ _ isShape oneMore (fun _ small => ?_) k
  unfold Instruction.InRange
  rw [isSlot]
  exact inRange (push_small small)

theorem storeLocal_emits
    {sc : StmtCompiler} {slot : UInt32}
    (inRange : sc.func.Small → slot.toNat < sc.func.locals.length) (k : ℕ) :
    Emits (k + 1) (k + 1) sc (sc.storeLocal slot) := by
  have dup : Emits (k + 1) (k + 2) sc (sc.emitOp .dup) :=
    emitInst_emits sc .dup 0 1 2 rfl (by decide) rfl k
  have store : Emits (k + 2) (k + 2) (sc.emitOp .dup)
      ((sc.emitOp .dup).emitInst .storeLocal slot) :=
    onLocal_emits (sc.emitOp .dup) .storeLocal slot 0 1 1 rfl (by decide) rfl
      (fun small => inRange (push_small small)) (k + 1)
  exact dup.trans (store.trans (emitInst_emits _ .drop 0 1 0 rfl (by decide) rfl (k + 1)))

/-! ## Jumps -/

theorem modify_at
    {former latter : List Instruction} {ins : Instruction} (change : Instruction → Instruction) :
    (former ++ ins :: latter).modify former.length change = former ++ change ins :: latter := by
  induction former with
  | nil => rfl
  | cons first former ih => exact congrArg (List.cons first) ih

theorem patchJump_code
    {sc : StmtCompiler} {former latter : List Instruction} {ins : Instruction} {position : ℕ}
    (isPosition : position = former.length) (isCode : sc.func.code = former ++ ins :: latter) :
    (sc.patchJump position).func.code = former ++ { ins with a := sc.here } :: latter := by
  change sc.func.code.modify position (fun ins => { ins with a := sc.here }) = _
  rw [isPosition, isCode]
  exact modify_at _

theorem patchJump_grows (sc : StmtCompiler) (position : ℕ) : Grows sc (sc.patchJump position) :=
  ⟨.refl sc.ctx, List.prefix_rfl, List.prefix_rfl⟩

theorem patchJump_length (sc : StmtCompiler) (position : ℕ) :
    (sc.patchJump position).func.code.length = sc.func.code.length :=
  List.length_modify _ _ _

theorem toNat_here {sc : StmtCompiler} (small : sc.func.Small) :
    sc.here.toNat = sc.func.code.length :=
  UInt32.toNat_ofNat_of_lt' small.code

namespace Emits

variable {low high : ℕ} {start first second third : StmtCompiler}

/-- A choice: a branch, one alternative, a jump, and the other one. -/
theorem choice
    (former : Emits low high (start.emitOp .jumpIfFalse) first)
    (latter : Emits low high ((first.emitOp .jump).patchJump start.func.code.length) second) :
    Emits (low + 1) high start (second.patchJump first.func.code.length) := by
  obtain ⟨added, isFirst, raises, inRange⟩ := former.code
  obtain ⟨added', isSecond, raises', inRange'⟩ := latter.code
  have firstCode : first.func.code =
      start.func.code ++ (⟨.jumpIfFalse, 0, 0⟩ :: added : List Instruction) := by
    rw [isFirst]
    exact List.append_assoc _ [_] _
  have jumpCode : (first.emitOp .jump).func.code =
      start.func.code ++ (⟨.jumpIfFalse, 0, 0⟩ :: (added ++ [⟨.jump, 0, 0⟩]) :
        List Instruction) := by
    change first.func.code ++ [⟨.jump, 0, 0⟩] = _
    rw [firstCode, List.append_assoc]
    rfl
  have patchedCode := patchJump_code rfl jumpCode
  have secondCode : second.func.code = (start.func.code ++
      ⟨.jumpIfFalse, (first.emitOp .jump).here, 0⟩ :: added : List Instruction) ++
        ⟨.jump, 0, 0⟩ :: added' := by
    rw [isSecond, patchedCode, List.append_assoc, List.append_assoc, List.cons_append,
      List.cons_append, List.append_assoc]
    rfl
  have isPosition : first.func.code.length = (start.func.code ++
      ⟨.jumpIfFalse, (first.emitOp .jump).here, 0⟩ :: added : List Instruction).length := by
    rw [firstCode, List.length_append, List.length_append]
    rfl
  have finalCode := patchJump_code isPosition secondCode
  have former_longer := former.longer
  have latter_longer := latter.longer
  have firstLength : first.func.code.length = start.func.code.length + 1 + added.length := by
    rw [firstCode, List.length_append, List.length_cons]
    omega
  have secondLength : second.func.code.length =
      start.func.code.length + 1 + added.length + 1 + added'.length := by
    rw [secondCode, List.length_append, ← isPosition, firstLength, List.length_cons]
    omega
  have midLength : ((first.emitOp .jump).patchJump start.func.code.length).func.code.length =
      start.func.code.length + 1 + added.length + 1 := by
    rw [patchJump_length]
    change (first.func.code ++ [_]).length = _
    rw [List.length_append, firstLength, List.length_singleton]
  have firstGrows : Grows start first := (push_grows start _ _ _).trans former.grows
  have midGrows : Grows first ((first.emitOp .jump).patchJump start.func.code.length) :=
    (push_grows first _ _ _).trans (patchJump_grows _ _)
  have lastGrows := latter.grows.trans (patchJump_grows second first.func.code.length)
  have secondSmall : (second.patchJump first.func.code.length).func.Small →
      second.func.Small :=
    (patchJump_grows second _).small (patchJump_length second _).ge
  refine ⟨firstGrows.trans (midGrows.trans lastGrows), ?_, _,
    finalCode.trans (List.append_assoc _ _ _), ?_, ?_⟩
  · rw [patchJump_length]
    change (start.func.code ++ [_]).length + _ ≤ _ at former_longer
    rw [List.length_append, List.length_singleton] at former_longer
    omega
  · intro small base
    have middleSmall := latter.small (secondSmall small)
    have here_first : (first.emitOp .jump).here.toNat =
        start.func.code.length + 1 + added.length + 1 := by
      rw [← midLength, patchJump_length]
      exact toNat_here ((patchJump_grows _ _).small (patchJump_length _ _).ge middleSmall)
    have here_second := toNat_here (secondSmall small)
    have isFormer := raises (midGrows.small (by rw [midLength, firstLength]; omega)
      middleSmall) base
    have isLatter := raises' (secondSmall small) base
    rw [midLength] at isLatter
    change Raises (start.func.code ++ [_]).length _ _ _ at isFormer
    rw [List.length_append, List.length_singleton] at isFormer
    rw [← added.length_map (f := Instruction.shape)] at isLatter
    have isChoice := Raises.choice isFormer isLatter
    rw [List.length_map, List.length_map] at isChoice
    rw [List.cons_append, List.map_cons, List.map_append, List.map_cons]
    unfold Instruction.shape at isChoice ⊢
    dsimp only
    rw [here_first, here_second, secondLength]
    exact isChoice
  · intro inUse small ins isAdded
    have firstInUse := firstGrows.ctx.inUse inUse
    have middleSmall := latter.small (secondSmall small)
    have firstSmall := midGrows.small (by rw [midLength, firstLength]; omega) middleSmall
    have midInUse := midGrows.ctx.inUse firstInUse
    rcases List.mem_append.mp isAdded with isFormer | isLatter
    · rcases List.mem_cons.mp isFormer with rfl | isFormer
      · trivial
      · exact (midGrows.trans lastGrows).inRange firstInUse
          (inRange inUse firstSmall ins isFormer)
    · rcases List.mem_cons.mp isLatter with rfl | isLatter
      · trivial
      · exact (patchJump_grows second _).inRange (latter.grows.ctx.inUse midInUse)
          (inRange' midInUse (secondSmall small) ins isLatter)

/-- A branch over a statement. -/
theorem skip
    (inner : Emits 0 0 (start.emitOp .jumpIfFalse) first) :
    Emits 1 0 start (first.patchJump start.func.code.length) := by
  obtain ⟨added, isFirst, raises, inRange⟩ := inner.code
  have firstCode : first.func.code =
      start.func.code ++ (⟨.jumpIfFalse, 0, 0⟩ :: added : List Instruction) := by
    rw [isFirst]
    exact List.append_assoc _ [_] _
  have firstLength : first.func.code.length = start.func.code.length + 1 + added.length := by
    rw [firstCode, List.length_append, List.length_cons]
    omega
  have firstGrows : Grows start first := (push_grows start _ _ _).trans inner.grows
  have firstSmall := (patchJump_grows first start.func.code.length).small
    (patchJump_length first _).ge
  refine ⟨firstGrows.trans (patchJump_grows first _), ?_, _, patchJump_code rfl firstCode,
    ?_, ?_⟩
  · rw [patchJump_length]
    omega
  · intro small base
    have isInner := raises (firstSmall small) base
    change Raises (start.func.code ++ [_]).length _ _ _ at isInner
    rw [List.length_append, List.length_singleton] at isInner
    have isSkip := Raises.skip isInner
    rw [List.length_map, ← firstLength, ← toNat_here (firstSmall small)] at isSkip
    exact isSkip
  · intro inUse small ins isAdded
    rcases List.mem_cons.mp isAdded with rfl | isInner
    · trivial
    · exact (patchJump_grows first _).inRange (firstGrows.ctx.inUse inUse)
        (inRange inUse (firstSmall small) ins isInner)

/-- A statement that is repeated for ever. -/
theorem forever (inner : Emits 0 0 start first) :
    Emits 0 0 start (first.emitInst .jump start.here) := by
  obtain ⟨added, isFirst, raises, inRange⟩ := inner.code
  have firstSmall : (first.emitInst .jump start.here).func.Small → first.func.Small :=
    push_small
  refine ⟨inner.grows.trans (push_grows first _ _ _), ?_, added ++ [⟨.jump, start.here, 0⟩],
    ?_, ?_, ?_⟩
  · have longer := inner.longer
    change _ ≤ (first.func.code ++ [_]).length
    rw [List.length_append]
    omega
  · change first.func.code ++ [_] = _
    rw [isFirst, List.append_assoc]
  · intro small base
    have isForever : Raises start.func.code.length _ (base + 0) (base + 0) :=
      (raises (firstSmall small) base).forever
    have isHere := toNat_here (inner.small (firstSmall small))
    rw [List.map_append]
    change Raises _ (_ ++ [⟨0, 0, .jump start.here.toNat⟩]) _ _
    rw [isHere]
    exact isForever
  · intro inUse small ins isAdded
    rcases List.mem_append.mp isAdded with isInner | isJump
    · exact (push_grows first _ _ _).inRange (inner.grows.ctx.inUse inUse)
        (inRange inUse (firstSmall small) ins isInner)
    · rw [List.mem_singleton.mp isJump]
      trivial

/-- A loop: the condition, a branch to the end, the body, and a jump back. -/
theorem loop
    (condition : Emits 0 1 start first)
    (inner : Emits 0 0 (first.emitOp .jumpIfFalse) second) :
    Emits 0 0 start
      ((second.emitInst .jump start.here).patchJump first.func.code.length) := by
  obtain ⟨added, isFirst, raises, inRange⟩ := condition.code
  obtain ⟨added', isSecond, raises', inRange'⟩ := inner.code
  have jumpCode : (second.emitInst .jump start.here).func.code = first.func.code ++
      (⟨.jumpIfFalse, 0, 0⟩ :: (added' ++ [⟨.jump, start.here, 0⟩]) : List Instruction) := by
    change second.func.code ++ [_] = _
    rw [isSecond, List.append_assoc]
    exact List.append_assoc _ [_] _
  have secondLength : second.func.code.length =
      first.func.code.length + 1 + added'.length := by
    rw [isSecond, List.length_append]
    change (first.func.code ++ [_]).length + _ = _
    rw [List.length_append, List.length_singleton]
  have firstLength : first.func.code.length = start.func.code.length + added.length := by
    rw [isFirst, List.length_append]
  have endLength : (second.emitInst .jump start.here).func.code.length =
      first.func.code.length + 1 + added'.length + 1 := by
    rw [← secondLength]
    exact List.length_append
  have secondGrows : Grows first second := (push_grows first _ _ _).trans inner.grows
  have lastGrows : Grows second
      ((second.emitInst .jump start.here).patchJump first.func.code.length) :=
    (push_grows second _ _ _).trans (patchJump_grows _ _)
  have finalCode : ((second.emitInst .jump start.here).patchJump
      first.func.code.length).func.code = start.func.code ++ (added ++
        ⟨.jumpIfFalse, (second.emitInst .jump start.here).here, 0⟩ ::
          (added' ++ [⟨.jump, start.here, 0⟩])) := by
    rw [patchJump_code rfl jumpCode, isFirst, List.append_assoc]
  have jumpSmall := (patchJump_grows (second.emitInst .jump start.here)
    first.func.code.length).small (patchJump_length _ _).ge
  refine ⟨condition.grows.trans (secondGrows.trans lastGrows), ?_, _, finalCode, ?_, ?_⟩
  · rw [patchJump_length, endLength]
    omega
  · intro small base
    have secondSmall := push_small (jumpSmall small)
    have firstSmall := secondGrows.small (by omega) secondSmall
    have isCondition := raises firstSmall base
    have isInner := raises' secondSmall base
    change Raises (first.func.code ++ [_]).length _ _ _ at isInner
    rw [List.length_append, List.length_singleton, firstLength,
      ← added.length_map (f := Instruction.shape)] at isInner
    have isLoop := Raises.loop isCondition isInner
    rw [List.length_map, List.length_map, ← firstLength, ← endLength] at isLoop
    have isEnd := toNat_here (jumpSmall small)
    have isStart := toNat_here (condition.small firstSmall)
    rw [List.map_append, List.map_cons, List.map_append]
    change Raises _ (_ ++ ⟨1, 0, .branch (second.emitInst .jump start.here).here.toNat⟩ ::
      (_ ++ [⟨0, 0, .jump start.here.toNat⟩])) _ _
    rw [isEnd, isStart]
    exact isLoop
  · intro inUse small ins isAdded
    have firstInUse := condition.grows.ctx.inUse inUse
    have secondSmall := push_small (jumpSmall small)
    have firstSmall := secondGrows.small (by omega) secondSmall
    rcases List.mem_append.mp isAdded with isCondition | isRest
    · exact (secondGrows.trans lastGrows).inRange firstInUse
        (inRange inUse firstSmall ins isCondition)
    · rcases List.mem_cons.mp isRest with rfl | isRest
      · trivial
      · rcases List.mem_append.mp isRest with isInner | isJump
        · exact lastGrows.inRange (secondGrows.ctx.inUse firstInUse)
            (inRange' firstInUse secondSmall ins isInner)
        · rw [List.mem_singleton.mp isJump]
          trivial

end Emits
end StmtCompiler
end Script
end MuonJs
