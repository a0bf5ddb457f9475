import Mdfs.Lib.Grouping
import Mdfs.Lib.Wire
import Mdfs.MaRTA.Planning

/-!
# The partial reduces of a job

`combinerPartialsReducePlanning` looks for a partial reduce on the node of each map, and makes
one when there is none. Its ids are 16 bits wide, and `0` is that of the final reduce.

* `Partition`: each map has its temp in the one reduce of its node.
* `Partition.ids_eq`: the ids are `1` to the number of reduces.
* `ok_partition`: the fold over the maps makes a partition of them.
-/

namespace Mdfs.MaRTA

open Lib Wire

/-- **The maps grouped by node**: for each node of a map one reduce, with the temps of the maps on
this node in their order. -/
structure Partition (maps : List Map) (reduces : List Reduce) : Prop where
  groups : Groups Map.nodeName mapToTemporal Reduce.finalNode Reduce.temps maps reduces
  ids : ∀ (i : ℕ) (r : Reduce), reduces[i]? = some r → r.id = (i + 1).toUInt16

variable {maps : List Map} {reduces : List Reduce} {map : Map} {reduce : Reduce} {i : ℕ}

namespace Partition

theorem nil : Partition [] [] := ⟨groups_nil, fun _ _ h => absurd h (by simp)⟩

/-- A map of a node that has a reduce. -/
theorem add (h : Partition maps reduces) (hi : reduces[i]? = some reduce) (hnode : reduce.finalNode = map.nodeName) :
    Partition (maps ++ [map]) (reduces.modify i fun r => { r with temps := r.temps ++ [mapToTemporal map] }) where
  groups := h.groups.modify hi hnode rfl rfl
  ids := ids_addTemp h.ids i (mapToTemporal map)

/-- A map of a node that has none. -/
theorem append (h : Partition maps reduces) (hnew : ∀ r ∈ reduces, r.finalNode ≠ map.nodeName)
    (hid : reduce.id = (reduces.length + 1).toUInt16) (hnode : reduce.finalNode = map.nodeName)
    (htemps : reduce.temps = [mapToTemporal map]) : Partition (maps ++ [map]) (reduces ++ [reduce]) where
  groups := h.groups.append hnew hnode htemps
  ids := ids_append h.ids hid

/-- **The ids** are `1` to the number of reduces. -/
theorem ids_eq (h : Partition maps reduces) (hfew : (maps.map Map.nodeName).toFinset.card < 65535) :
    reduces.map (fun r => r.id.toNat) = List.range' 1 reduces.length := by
  have hlen := h.groups.length_eq
  refine List.ext_getElem? fun i => ?_
  rw [List.getElem?_map]
  rcases Nat.lt_or_ge i reduces.length with hi | hi
  · have hget := List.getElem?_eq_getElem hi
    rw [hget, Option.map_some, h.ids i _ hget, toNat_toUInt16 (by omega), List.getElem?_range' (by omega)]
    congr 1
    omega
  · rw [List.getElem?_eq_none hi, List.getElem?_eq_none (by simpa using hi), Option.map_none]

end Partition

variable {L : Type} {S : Spec Resp L} {I : L → Prop} {E : Exit → L → Prop} {l : L}

/-- **`agregarAPartialReduces` on all maps** makes a partition of them. It asks for the time only. -/
theorem ok_partition (hI : ∀ l, I l → S.pre l .getTime ∧ ∀ time l', S.post l .getTime time l' → I l') (jobID : UInt16)
    (maps : List Map) (hl : I l) :
    (maps.foldlM (agregarAPartialReduces jobID) []).Ok S (fun reduces l' => Partition maps reduces ∧ I l') E l := by
  refine Prog.ok_foldlM (K := fun done reduces l' => Partition done reduces ∧ I l') maps ?_ ⟨.nil, hl⟩
  rintro done map rest reduces l₁ - ⟨h, hl₁⟩
  unfold agregarAPartialReduces
  cases hfind : reduces.findIdx? fun reduce => reduce.finalNode = map.nodeName with
  | some i =>
    obtain ⟨hi, hnode, -⟩ := List.findIdx?_eq_some_iff_getElem.1 hfind
    exact ⟨h.add (List.getElem?_eq_getElem hi) (of_decide_eq_true hnode), hl₁⟩
  | none =>
    have hnew : ∀ r ∈ reduces, r.finalNode ≠ map.nodeName := by
      intro r hr hnode
      have hnot := List.findIdx?_eq_none_iff.1 hfind r hr
      simp [hnode] at hnot
    dsimp only
    rw [Prog.ok_bind]
    obtain ⟨hpre, hpost⟩ := hI l₁ hl₁
    refine ⟨hpre, fun time l₂ hturn => ?_⟩
    exact ⟨h.append hnew rfl rfl rfl, hpost time l₂ hturn⟩

end Mdfs.MaRTA
