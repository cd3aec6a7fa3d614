import MuonJs.Script.Context

/-!
# Strings stay

Memory is taken and never given back, so a string that is on the heap stays
there, whatever is allocated or stored later.
-/

namespace MuonJs
namespace Script
namespace Context

open Cache (Bytes)

/-- No cell lies beyond the memory in use. -/
def CellsInUse (ctx : Context) : Prop :=
  ∀ address, ctx.mem.offset ≤ address → ctx.heap address = none

/-- Cells stay in use, and strings stay what they are. -/
structure Keeps (before after : Context) : Prop where
  inUse : before.CellsInUse → after.CellsInUse
  strings : before.CellsInUse → ∀ address bytes,
    before.heap address = some (.string bytes) → after.heap address = some (.string bytes)

namespace Keeps

variable {first second third : Context}

theorem refl (ctx : Context) : Keeps ctx ctx := ⟨id, fun _ _ _ stored => stored⟩

theorem trans (former : Keeps first second) (latter : Keeps second third) :
    Keeps first third where
  inUse := fun inUse => latter.inUse (former.inUse inUse)
  strings := fun inUse address bytes stored =>
    latter.strings (former.inUse inUse) address bytes (former.strings inUse address bytes stored)

/-- A step that leaves the heap and frees nothing. -/
theorem of_heap
    (sameHeap : second.heap = first.heap) (more : first.mem.offset ≤ second.mem.offset) :
    Keeps first second where
  inUse := by
    intro inUse address beyond
    rw [sameHeap]
    exact inUse address (more.trans beyond)
  strings := by
    intro _ address bytes stored
    rw [sameHeap]
    exact stored

end Keeps

theorem stringBytes_eq_some
    {ctx : Context} {value : JSValue} {bytes : Bytes} (isText : ctx.stringBytes value = some bytes) :
    ∃ address, value = .ptr address ∧ ctx.heap address = some (.string bytes) := by
  unfold stringBytes at isText
  split at isText
  · split at isText
    · rename_i stored
      cases isText
      exact ⟨_, rfl, stored⟩
    · cases isText
  · cases isText

theorem Keeps.stringBytes
    {before after : Context} (keeps : Keeps before after) (inUse : before.CellsInUse)
    {value : JSValue} {bytes : Bytes} (isText : before.stringBytes value = some bytes) :
    after.stringBytes value = some bytes := by
  obtain ⟨address, rfl, stored⟩ := stringBytes_eq_some isText
  rw [Context.stringBytes, keeps.strings inUse address bytes stored]

/-! ## Allocations -/

theorem le_alignUp (value : ℕ) : value ≤ alignUp value 8 := by
  unfold alignUp
  split
  · exact Nat.le_refl value
  · omega

theorem alloc_eq_some
    {mem after : MemoryRegion} {size address : ℕ}
    (allocated : mem.alloc size 8 = some (address, after)) :
    mem.offset ≤ address ∧ after.offset = address + size := by
  unfold MemoryRegion.alloc at allocated
  dsimp only at allocated
  split at allocated
  · cases allocated
  · cases allocated
    exact ⟨le_alignUp mem.offset, rfl⟩

theorem allocCell_keeps
    {ctx after : Context} {size address : ℕ} {cell : Cell} (nonempty : 0 < size)
    (allocated : ctx.allocCell size cell = some (address, after)) :
    Keeps ctx after ∧ after.heap address = some cell := by
  unfold allocCell at allocated
  obtain ⟨⟨place, mem⟩, isAlloc, isAfter⟩ := Option.map_eq_some_iff.mp allocated
  obtain ⟨low, offset⟩ := alloc_eq_some isAlloc
  cases isAfter
  refine ⟨⟨?_, ?_⟩, Function.update_self _ _ _⟩
  · intro inUse other beyond
    dsimp only at beyond ⊢
    rw [Function.update_of_ne (by omega)]
    exact inUse other (by omega)
  · intro inUse other bytes stored
    dsimp only
    rw [Function.update_of_ne ?_]
    · exact stored
    · rintro rfl
      rw [inUse other low] at stored
      cases stored

theorem allocProperty_keeps
    {ctx after : Context} (allocated : ctx.allocProperty = some after) :
    Keeps ctx after ∧ after.heap = ctx.heap := by
  unfold allocProperty at allocated
  obtain ⟨⟨place, mem⟩, isAlloc, rfl⟩ := Option.map_eq_some_iff.mp allocated
  obtain ⟨low, offset⟩ := alloc_eq_some isAlloc
  exact ⟨.of_heap rfl (by dsimp only; omega), rfl⟩

/-- An object is written where one was. -/
theorem putObject_keeps
    {ctx : Context} {address : ℕ} {old : HeapObject}
    (stored : ctx.heap address = some (.object old)) (obj : HeapObject) :
    Keeps ctx (ctx.putObject address obj) where
  inUse := by
    intro inUse other beyond
    refine (Function.update_of_ne ?_ _ _).trans (inUse other beyond)
    rintro rfl
    rw [inUse other beyond] at stored
    cases stored
  strings := by
    intro _ other bytes isString
    refine (Function.update_of_ne ?_ _ _).trans isString
    rintro rfl
    rw [stored] at isString
    cases isString

theorem putMap_keeps (ctx : Context) (address : ℕ) (map : PropMap) :
    Keeps ctx (ctx.putMap address map) := .of_heap rfl (Nat.le_refl _)

theorem internString_keeps (ctx : Context) (text : Bytes) :
    Keeps ctx (ctx.internString text).2 := by
  unfold internString
  split
  · exact .refl ctx
  · split
    · exact .refl ctx
    · rename_i allocated
      exact (allocCell_keeps (by omega) allocated).1.trans (.of_heap rfl (Nat.le_refl _))

theorem setPropValue_keeps
    {ctx : Context} {address : ℕ} {obj : HeapObject}
    (stored : ctx.heap address = some (.object obj)) (key : PropKey) (value : JSValue) :
    Keeps ctx (ctx.setPropValue address obj key value).2 := by
  unfold setPropValue
  split
  · rename_i map _
    have mapped := putMap_keeps ctx address (Function.update map key.mapKey (some value))
    split
    · exact mapped.trans (putObject_keeps (by exact stored) _)
    · dsimp only
      split
      · exact mapped
      · rename_i allocated
        obtain ⟨keeps, sameHeap⟩ := allocProperty_keeps allocated
        have storedAfter : _ = some (Cell.object obj) := (congrFun sameHeap address).trans stored
        exact mapped.trans (keeps.trans (putObject_keeps storedAfter _))
  · split
    · exact putObject_keeps stored _
    · split
      · exact .refl ctx
      · rename_i after allocated
        obtain ⟨keeps, sameHeap⟩ := allocProperty_keeps allocated
        have appended : Keeps ctx (after.putObject address (obj.append key value)) := by
          have storedAfter : _ = some (Cell.object obj) := (congrFun sameHeap address).trans stored
          exact keeps.trans (putObject_keeps storedAfter _)
        dsimp only
        split
        · exact appended.trans (putMap_keeps _ _ _)
        · exact appended

theorem setPropertyAtomId_keeps (ctx : Context) (val : JSValue) (atom : UInt32)
    (value : JSValue) : Keeps ctx (ctx.setPropertyAtomId val atom value).2 := by
  unfold setPropertyAtomId
  split
  · exact .refl ctx
  · rename_i address obj isObject
    refine setPropValue_keeps ?_ _ _
    unfold objectPtr at isObject
    split at isObject
    · split at isObject
      · rename_i stored
        cases isObject
        exact stored
      · cases isObject
    · cases isObject

theorem hasPropertyStr_keeps (ctx : Context) (val : JSValue) (name : Bytes) :
    Keeps ctx (ctx.hasPropertyStr val name).2 := by
  unfold hasPropertyStr
  split
  · exact .refl ctx
  · split
    · exact .refl ctx
    · have keeps := internString_keeps ctx name
      split
      · rename_i isInterned
        rw [isInterned] at keeps
        exact keeps
      · rename_i isInterned
        rw [isInterned] at keeps
        exact keeps

end Context
end Script
end MuonJs
