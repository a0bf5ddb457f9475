import Mathlib.Algebra.GroupWithZero.Nat
import Mathlib.Algebra.BigOperators.Group.List.Basic
import Mathlib.Algebra.Order.BigOperators.Group.List
import Mdfs.FileSystem.Bitmap
import Mdfs.FileSystem.Effects

/-!
# The free space that is shown

`filesystem_getFreeSpaceKiloBytes`, with the sum and the product in the `int` that they are
computed in: `none` is an overflow.

* `sumBlocks_eq_some_iff`: the sum over the nodes, while it is an `int`.
* `freeSpaceKiloBytes_eq_some_iff`: the product is an `int` up to 104857 free blocks.
* `free_space_exact_iff`: over every store and every set of active nodes.
* `free_space_overflows`: two large nodes.
-/

namespace Mdfs.FileSystem

open Lib Bitmap

/-- The value of an `int` expression; `none` when it overflows. -/
def intValue (x : ℤ) : Option ℤ := if -2 ^ 31 ≤ x ∧ x < 2 ^ 31 then some x else none

/-- `sumBlocks`. -/
def sumBlocks (freeBlocks : ℤ) (node : Node) : Option ℤ := intValue (freeBlocks + nodeGetBlocksFreeCount node)

/-- The sum over the nodes and the product that is returned, widened to an `unsigned long`. -/
def freeSpaceKiloBytes (nodes : List Node) : Option ℕ := do
  let freeBlocks ← nodes.foldlM sumBlocks 0
  let kiloBytes ← intValue (freeBlocks * (20 * 1024 * 1024 / 1024))
  pure (kiloBytes % 2 ^ 64).toNat

def filesystemGetFreeSpaceKiloBytes : FsProg (Option ℕ) := do
  let nodes ← filesystemGetAllActivatedNodes
  pure (freeSpaceKiloBytes nodes)

/-! ## The arithmetic -/

variable {n : Node} {nodes : List Node}

/-- The number of the node's blocks whose bit is clear. -/
def freeBlocks (n : Node) : ℕ := (clearOf n.blocksCount.toNat (usedOf n)).card

/-- Without any condition on the bitmap: the bits looked at are those of the node's blocks. -/
theorem nodeGetBlocksFreeCount_eq (n : Node) : nodeGetBlocksFreeCount n = freeBlocks n := by
  have hused : ∀ i ∈ List.range n.blocksCount.toNat, (!nodeIsBlockUsed n i) = true ↔ decide (i ∉ usedOf n) = true := by
    intro i hi
    have hlt : i < n.blocksCount.toNat := List.mem_range.1 hi
    simp [nodeIsBlockUsed, nodeBlockIsValidIndex, usedOf, hlt]
  unfold nodeGetBlocksFreeCount freeBlocks
  rw [card_clearOf_eq_countP]
  exact List.countP_congr hused

theorem intValue_eq_some_iff {x y : ℤ} : intValue x = some y ↔ y = x ∧ -2 ^ 31 ≤ x ∧ x < 2 ^ 31 := by
  unfold intValue
  split
  · rename_i hfits
    rw [Option.some.injEq]
    exact ⟨fun h => ⟨h.symm, hfits⟩, fun h => h.1.symm⟩
  · rename_i hout
    exact ⟨fun h => absurd h.symm (Option.some_ne_none y), fun h => absurd h.2 hout⟩

/-- The sum is an `int` at every node just when it is one at the end. -/
theorem sumBlocks_eq_some_iff (nodes : List Node) (total : ℤ) {start : ℕ} (hstart : start < 2 ^ 31) :
    nodes.foldlM sumBlocks (start : ℤ) = some total ↔
      total = start + (nodes.map freeBlocks).sum ∧ start + (nodes.map freeBlocks).sum < 2 ^ 31 := by
  induction nodes generalizing start with
  | nil =>
    simp only [List.foldlM_nil, List.map_nil, List.sum_nil, Option.pure_def, Option.some.injEq]
    omega
  | cons n nodes ih =>
    have hcount := nodeGetBlocksFreeCount_eq n
    rw [List.foldlM_cons, List.map_cons, List.sum_cons]
    by_cases hfits : start + freeBlocks n < 2 ^ 31
    · have hsum : sumBlocks start n = some ((start + freeBlocks n : ℕ) : ℤ) := by
        unfold sumBlocks
        rw [hcount, intValue_eq_some_iff]
        omega
      rw [hsum, Option.bind_eq_bind, Option.bind_some, ih hfits]
      omega
    · have hsum : sumBlocks start n = none := by
        unfold sumBlocks intValue
        rw [hcount, if_neg (by omega)]
      rw [hsum, Option.bind_eq_bind, Option.bind_none]
      constructor
      · intro h
        exact absurd h.symm (Option.some_ne_none total)
      · intro h
        omega

/-- **The free space of the nodes** is computed up to 104857 free blocks, and is exact. -/
theorem freeSpaceKiloBytes_eq_some_iff {kb : ℕ} : freeSpaceKiloBytes nodes = some kb ↔
    kb = 20480 * (nodes.map freeBlocks).sum ∧ (nodes.map freeBlocks).sum ≤ 104857 := by
  have hsum : ∀ sum : ℤ, nodes.foldlM sumBlocks 0 = some sum ↔
      sum = (nodes.map freeBlocks).sum ∧ (nodes.map freeBlocks).sum < 2 ^ 31 := by
    intro sum
    have hzero := sumBlocks_eq_some_iff nodes sum (Nat.two_pow_pos 31)
    simpa using hzero
  have hblock : (20 * 1024 * 1024 / 1024 : ℤ) = 20480 := rfl
  unfold freeSpaceKiloBytes
  simp only [Option.bind_eq_bind, Option.bind_eq_some_iff, Option.pure_def, Option.some.injEq, intValue_eq_some_iff,
    hblock, hsum]
  generalize (nodes.map freeBlocks).sum = total
  have hwiden : total ≤ 104857 → (total * 20480 : ℤ) % 2 ^ 64 = total * 20480 := fun hle =>
    Int.emod_eq_of_lt (by omega) (by omega)
  constructor
  · rintro ⟨_, ⟨rfl, -⟩, _, ⟨rfl, -, hlt⟩, hkb⟩
    have hle : total ≤ 104857 := by omega
    rw [hwiden hle] at hkb
    exact ⟨by omega, hle⟩
  · rintro ⟨rfl, hle⟩
    refine ⟨total, ⟨rfl, by omega⟩, total * 20480, ⟨rfl, by omega, by omega⟩, ?_⟩
    rw [hwiden hle]
    omega

/-! ## Over the store -/

/-- The connections answer that the nodes of `active` are. -/
def AnswersAs (active : CStr → Bool) (_ : World) (r : Req) (c : Choice) : Prop :=
  ∀ id, r = .isActive id → c.ok = active id

/-- The stored nodes that are active. -/
def activeNodes (active : CStr → Bool) (w : World) : List Node := w.nodes.docs.filter fun n => active n.id

theorem getAllActivatedNodes_active {Q : List Node → World → Prop} {E : Stop → World → Prop}
    (hQ : Q (activeNodes active w) w) :
    filesystemGetAllActivatedNodes.Ok (worldSpec (AnswersAs active)) Q E w := by
  simp only [filesystemGetAllActivatedNodes, mongoNodeGetAll, Prog.ok_bind, ok_ask, Prog.ok_ret, serve]
  intro _ _
  refine (Prog.ok_foldlM (K := fun done N v => v = w ∧ N = done.filter fun n => active n.id) w.nodes.docs ?_
    ⟨rfl, rfl⟩).imp ?_
  · rintro done n rest N v hd ⟨rfl, rfl⟩
    simp only [Prog.ok_bind, ok_ask, Prog.ok_ret, serve]
    intro c hc
    have hok : c.ok = active n.id := hc n.id rfl
    rw [hok, List.filter_append]
    cases hactive : active n.id with
    | true => simp [Prog.ok_pure, hactive]
    | false => simp [Prog.ok_pure, hactive]
  · rintro N v ⟨rfl, rfl⟩
    exact hQ

theorem freeSpace_ok : filesystemGetFreeSpaceKiloBytes.Ok (worldSpec (AnswersAs active))
    (fun r v => r = freeSpaceKiloBytes (activeNodes active w) ∧ v = w) (fun _ _ => False) w := by
  rw [filesystemGetFreeSpaceKiloBytes, Prog.ok_bind]
  exact getAllActivatedNodes_active ⟨rfl, rfl⟩

/-- **The free space is shown exactly** just when the active nodes have at most 104857 free blocks, whatever is
stored and whichever nodes are active. -/
theorem free_space_exact_iff (w : World) (active : CStr → Bool) :
    (∀ is o v, filesystemGetFreeSpaceKiloBytes.Along handle (AnswersAs active) w is →
      filesystemGetFreeSpaceKiloBytes.exec handle w is = some (o, v) →
        o = .ok (some (20480 * ((activeNodes active w).map freeBlocks).sum))) ↔
      ((activeNodes active w).map freeBlocks).sum ≤ 104857 := by
  have hrun : ∀ is o v, filesystemGetFreeSpaceKiloBytes.Along handle (AnswersAs active) w is →
      filesystemGetFreeSpaceKiloBytes.exec handle w is = some (o, v) →
        o = .ok (freeSpaceKiloBytes (activeNodes active w)) := by
    intro is o v halong hexec
    have hout := freeSpace_ok.exec_along halong hexec
    cases o with
    | error e => exact hout.elim
    | ok r => rw [hout.1]
  constructor
  · intro hall
    have hserved : ∀ w r c, (handle w r c).isSome = true := fun _ _ _ => rfl
    have hanswer : ∀ w r, ∃ c, AnswersAs active w r c := by
      intro w r
      cases r with
      | isActive id => exact ⟨⟨active id, none⟩, fun id' h => by rw [Req.isActive.inj h]⟩
      | _ => exact ⟨.done, fun _ h => Req.noConfusion h⟩
    obtain ⟨is, ⟨o, v⟩, hexec, halong⟩ := Prog.exists_exec_along hserved hanswer filesystemGetFreeSpaceKiloBytes w
    have hexact := hall is o v halong hexec
    rw [hrun is o v halong hexec] at hexact
    exact (freeSpaceKiloBytes_eq_some_iff.1 (Except.ok.inj hexact)).2
  · intro hle is o v halong hexec
    rw [hrun is o v halong hexec, freeSpaceKiloBytes_eq_some_iff.2 ⟨rfl, hle⟩]

theorem freeBlocks_nodeCreate (id : CStr) (count : UInt16) : freeBlocks (nodeCreate id count) = count.toNat := by
  have hused : usedOf (nodeCreate id count) = ∅ := by
    simp [usedOf, nodeCreate, getByteArrayForBlocksCount]
  unfold freeBlocks
  rw [hused]
  simp [clearOf, nodeCreate]

/-- Two new nodes of 65535 blocks. -/
def twoLarge : World :=
  ⟨.empty, .empty, ⟨[nodeCreate (cstr "n1") 65535, nodeCreate (cstr "n2") 65535], by decide, by decide⟩, 0, fun _ => []⟩

/-- **131070 free blocks**, and the product overflows. -/
theorem free_space_overflows : ((activeNodes (fun _ => true) twoLarge).map freeBlocks).sum = 131070 ∧
    filesystemGetFreeSpaceKiloBytes.Along handle (AnswersAs fun _ => true) twoLarge [.done, .done, .done] ∧
    filesystemGetFreeSpaceKiloBytes.exec handle twoLarge [.done, .done, .done] = some (.ok none, twoLarge) := by
  have hactive : activeNodes (fun _ => true) twoLarge =
      [nodeCreate (cstr "n1") 65535, nodeCreate (cstr "n2") 65535] := rfl
  have hsum : ((activeNodes (fun _ => true) twoLarge).map freeBlocks).sum = 131070 := by
    rw [hactive]
    simp [freeBlocks_nodeCreate]
  have hnone : freeSpaceKiloBytes (activeNodes (fun _ => true) twoLarge) = none := by
    refine Option.eq_none_iff_forall_ne_some.2 fun kb hkb => ?_
    have hle := (freeSpaceKiloBytes_eq_some_iff.1 hkb).2
    omega
  have hexec : filesystemGetFreeSpaceKiloBytes.exec handle twoLarge [.done, .done, .done] =
      some (.ok (freeSpaceKiloBytes (activeNodes (fun _ => true) twoLarge)), twoLarge) := rfl
  refine ⟨hsum, Prog.along_of_mem fun c hc w r id _ => ?_, by rw [hexec, hnone]⟩
  have hdone : c = .done := by simpa using hc
  rw [hdone]
  rfl

end Mdfs.FileSystem
