import Mdfs.Lib.Decimal
import Mdfs.MaRTA.Placement

/-!
# The names of temporary files

`setTempMapName` and `setTempReduceName` with the arrays that they write on the stack:
`char idJob[4]`, `char numMap[4]` (or `numReduce[4]`) and `char resultName[60]`. They are
`none` where a number or a text is written past its array.

* `OnStack.setTempName_eq_some_iff`: the numbers are written inside their arrays up to 999.
* `tempText_inj`: a name tells its job, its kind and its number.
* `named_acceptJob`: what a job orders has such names.
* `temp_names`: over all runs; `name_overruns`: the job 1000.
-/

namespace Mdfs.MaRTA

open Lib

/-- A name is that of a map or of a reduce. -/
inductive TempKind
  | map
  | reduce
  deriving DecidableEq

/-- What stands before the number. -/
def TempKind.text : TempKind → CStr
  | .map => cstr "-Map"
  | .reduce => cstr "-Red"

namespace OnStack

/-- `strcat` into a `char[size]`. -/
def strcat (size : ℕ) (dest src : CStr) : Option CStr :=
  if dest.length + src.length < size then some (dest ++ src) else none

/-- `sprintf` of a number into a `char[size]`. -/
def sprintf (size : ℕ) (n : UInt16) : Option CStr := strcat size [] (decimal n)

/-- What the two functions have in common. -/
def setTempName (kind : TempKind) (time : Time) (number jobID : UInt16) : Option CStr := do
  let resultName ← strcat 60 [] time.text
  let resultName ← strcat 60 resultName (cstr "-Job")
  let idJob ← sprintf 4 jobID
  let resultName ← strcat 60 resultName idJob
  let resultName ← strcat 60 resultName kind.text
  let num ← sprintf 4 number
  let resultName ← strcat 60 resultName num
  let resultName ← strcat 60 resultName (cstr ".txt")
  strcat 60 [] resultName -- the `strcpy` into the name that is set

def setTempMapName (time : Time) (mapID jobID : UInt16) : Option CStr := setTempName .map time mapID jobID

def setTempReduceName (time : Time) (reduceID jobID : UInt16) : Option CStr := setTempName .reduce time reduceID jobID

end OnStack

variable {kind kind' : TempKind} {time time' : Time} {n n' j j' : UInt16}

/-- The text of a name. -/
def tempText (kind : TempKind) (time : Time) (number jobID : UInt16) : CStr :=
  time.text ++ cstr "-Job" ++ decimal jobID ++ kind.text ++ decimal number ++ cstr ".txt"

theorem decimal_eq (n : UInt16) : decimal n = decimalBytes n.toNat := rfl

theorem TempKind.length_text (kind : TempKind) : kind.text.length = 4 := by
  cases kind with
  | map => rfl
  | reduce => rfl

theorem length_tempText (kind : TempKind) (time : Time) (n j : UInt16) :
    (tempText kind time n j).length = 36 + (decimal j).length + (decimal n).length := by
  have hjob : (cstr "-Job").length = 4 := rfl
  have htxt : (cstr ".txt").length = 4 := rfl
  simp only [tempText, List.length_append, time.length_text, kind.length_text, hjob, htxt]
  omega

/-! ## On the stack -/

namespace OnStack

theorem strcat_of_lt {size : ℕ} {dest src : CStr} (h : dest.length + src.length < size) :
    strcat size dest src = some (dest ++ src) := if_pos h

/-- Three digits and the terminator. -/
theorem sprintf_eq (n : UInt16) : sprintf 4 n = if n ≤ 999 then some (decimal n) else none := by
  have hdigits : (decimal n).length ≤ 2 + 1 ↔ n.toNat < 10 ^ (2 + 1) := length_decimalBytes_le_iff 2
  have hle : n ≤ 999 ↔ n.toNat ≤ 999 := UInt16.le_iff_toNat_le
  unfold sprintf strcat
  by_cases h : n ≤ 999
  · have hlen : (decimal n).length ≤ 2 + 1 := hdigits.2 (Nat.lt_succ_of_le (hle.1 h))
    rw [if_pos h, if_pos (by simp; omega)]
    rfl
  · have hlen : ¬(decimal n).length ≤ 2 + 1 := fun hshort => h (hle.2 (Nat.le_of_lt_succ (hdigits.1 hshort)))
    rw [if_neg h, if_neg (by simp; omega)]

/-- **The numbers fit up to 999**, and the name always does. -/
theorem setTempName_eq (kind : TempKind) (time : Time) (number jobID : UInt16) :
    setTempName kind time number jobID = if jobID ≤ 999 ∧
      number ≤ 999 then some (tempText kind time number jobID) else none := by
  have hjob : (cstr "-Job").length = 4 := rfl
  have htxt : (cstr ".txt").length = 4 := rfl
  have htime := time.length_text
  have hkind := kind.length_text
  have hj := length_decimal_le jobID
  have hn := length_decimal_le number
  unfold setTempName
  rw [strcat_of_lt (by simp; omega)]
  simp only [Option.bind_eq_bind, Option.bind_some, List.nil_append]
  rw [strcat_of_lt (by omega), Option.bind_some, sprintf_eq]
  by_cases hjobID : jobID ≤ 999
  · rw [if_pos hjobID, Option.bind_some, strcat_of_lt (by simp only [List.length_append]; omega), Option.bind_some,
      strcat_of_lt (by simp only [List.length_append]; omega), Option.bind_some, sprintf_eq]
    by_cases hnumber : number ≤ 999
    · rw [if_pos hnumber, if_pos ⟨hjobID, hnumber⟩, Option.bind_some,
        strcat_of_lt (by simp only [List.length_append]; omega), Option.bind_some,
        strcat_of_lt (by simp only [List.length_append]; omega), Option.bind_some,
        strcat_of_lt (by simp only [List.length_append, List.length_nil]; omega)]
      rfl
    · rw [if_neg hnumber, if_neg fun h => hnumber h.2]
      rfl
  · rw [if_neg hjobID, if_neg fun h => hjobID h.1]
    rfl

end OnStack

/-! ## A name tells what it was made from -/

/-- A kind starts with a dash. -/
theorem TempKind.text_eq (kind : TempKind) : kind.text = 45 :: kind.text.tail := by
  cases kind with
  | map => rfl
  | reduce => rfl

theorem TempKind.text_injective (h : kind.text = kind'.text) : kind = kind' := by
  cases kind with
  | map =>
    cases kind' with
    | map => rfl
    | reduce => exact absurd h (by decide)
  | reduce =>
    cases kind' with
    | map => exact absurd h (by decide)
    | reduce => rfl

theorem TempKind.tail_append_inj {xs ys : CStr} (h : kind.text.tail ++ xs = kind'.text.tail ++ ys) :
    kind = kind' ∧ xs = ys := by
  have hlength : kind.text.tail.length = kind'.text.tail.length := by
    rw [List.length_tail, List.length_tail, kind.length_text, kind'.length_text]
  obtain ⟨htail, hrest⟩ := List.append_inj h hlength
  refine ⟨TempKind.text_injective ?_, hrest⟩
  rw [kind.text_eq, kind'.text_eq, htail]

/-- The text of a name, with what follows each number. -/
theorem tempText_eq (kind : TempKind) (time : Time) (n j : UInt16) :
    tempText kind time n j = (time.text ++ cstr "-Job") ++
    (decimalBytes j.toNat ++ 45 :: (kind.text.tail ++ (decimalBytes n.toNat ++ 46 :: [116, 120, 116]))) := by
  have htxt : cstr ".txt" = 46 :: [116, 120, 116] := rfl
  rw [tempText, decimal_eq, decimal_eq, htxt]
  nth_rewrite 1 [kind.text_eq]
  simp only [List.append_assoc, List.cons_append]

/-- **Unique readability**: whatever the times, names with one text are of one job, one kind and one number. -/
theorem tempText_inj (h : tempText kind time n j = tempText kind' time' n' j') : j = j' ∧ kind = kind' ∧ n = n' := by
  have hdash : (Char.ofNat (45 : UInt8).toNat).isDigit = false := by decide
  have hdot : (Char.ofNat (46 : UInt8).toNat).isDigit = false := by decide
  have hlength : (time.text ++ cstr "-Job").length = (time'.text ++ cstr "-Job").length := by
    rw [List.length_append, List.length_append, time.length_text, time'.length_text]
  rw [tempText_eq, tempText_eq] at h
  -- the time is read by its length, each number by what follows it
  obtain ⟨-, hrest⟩ := List.append_inj h hlength
  obtain ⟨hj, hrest⟩ := decimalBytes_append_inj hdash hrest
  obtain ⟨hkind, hrest⟩ := TempKind.tail_append_inj hrest
  obtain ⟨hn, -⟩ := decimalBytes_append_inj hdot hrest
  exact ⟨UInt16.toNat_inj.1 hj, hkind, UInt16.toNat_inj.1 hn⟩

/-! ## The names in the array -/

/-- The name that is set. -/
def tempNameOf : TempKind → Time → UInt16 → UInt16 → TempName
  | .map => setTempMapName
  | .reduce => setTempReduceName

theorem str_tempNameOf (kind : TempKind) (htime : 0 ∉ time.text) (n j : UInt16) :
    (tempNameOf kind time n j).str = tempText kind time n j := by
  have hbytes : (tempNameOf kind time n j).bytes =
      tempText kind time n j ++ List.replicate (TEMP_NAME_SIZE - (tempText kind time n j).length) 0 := by
    cases kind with
    | map => rfl
    | reduce => rfl
  have hdigits : ∀ k, 0 ∉ decimal k := by
    intro k hk
    exact absurd (isDigit_of_mem_decimalBytes hk) (by decide)
  have hkind : 0 ∉ kind.text := by
    cases kind with
    | map => decide
    | reduce => decide
  have hjob : 0 ∉ cstr "-Job" := by decide
  have htxt : 0 ∉ cstr ".txt" := by decide
  have hzero : 0 ∉ tempText kind time n j := by
    simp only [tempText, List.mem_append, not_or]
    exact ⟨⟨⟨⟨⟨htime, hjob⟩, hdigits j⟩, hkind⟩, hdigits n⟩, htxt⟩
  unfold TempName.str upToNul
  rw [hbytes, List.takeWhile_append_of_pos fun b hb => ?_, List.takeWhile_replicate]
  · simp
  · have hne : b ≠ 0 := fun h => hzero (h ▸ hb)
    simpa using hne

/-! ## What a job orders -/

/-- The names that are sent with an order: of the map or the reduce, and of the partial reduces that it is one of. -/
def Req.names : Req → List (TempKind × UInt16 × TempName)
  | .sendMap _ map => [(.map, map.id, map.tempResultName)]
  | .sendReduce _ job reduce => (.reduce, reduce.id, reduce.tempResultName) ::
      job.partialReduces.map fun r => (.reduce, r.id, r.tempResultName)
  | _ => []

/-- The name was set for the job with the number, at some time. -/
def NamedFor (id : UInt16) (x : TempKind × UInt16 × TempName) : Prop :=
  ∃ time : Time, 0 ∉ time.text ∧ x.2.2 = tempNameOf x.1 time x.2.1 id

/-- The text of a time has no zero byte. -/
def Told : (r : Req) → Resp r → Prop
  | .getTime, time => 0 ∉ time.text
  | _, _ => True

/-- **The specification of a job** as to the names that it sends. -/
def nameSpec (id : UInt16) : Spec Resp Talk where
  pre _ r := ∀ x ∈ r.names, NamedFor id x
  post _ r x _ := Told r x

/-- The job has its id, and its partial reduces have their names. -/
structure NamedJob (id : UInt16) (job : Job) : Prop where
  jobID : job.id = id
  partials : ∀ r ∈ job.partialReduces, NamedFor id (.reduce, r.id, r.tempResultName)

variable {id : UInt16} {α : Type} {job : Job} {l : Talk}

theorem named_request {r : Req} {Q : Resp r → Talk → Prop} (h : ∀ x ∈ r.names, NamedFor id x)
    (hQ : ∀ x l, Told r x → Q x l) :
    (request r).Ok (nameSpec id) Q anyExit l := ⟨h, fun x l hx => hQ x l hx⟩

/-- A request without a name. -/
theorem nameless {r : Req} (h : r.names = []) : (request r).Always (nameSpec id) :=
  Prog.always_ask (fun _ _ hx => absurd hx (h ▸ List.not_mem_nil)) fun _ _ _ _ _ => trivial

theorem nameless_removeMaps (site : Removal) (maps : List Map) : (removeMaps site maps).Always (nameSpec id) :=
  Prog.always_iterate maps fun _ _ => nameless rfl

/-- A thread that leaves does not come back. -/
theorem named_leave {freed : Bool} {Q : α → Talk → Prop} (job : Job) (exit : Exit) :
    (leave job exit freed : JobProg α).Ok (nameSpec id) Q anyExit l := by
  unfold leave
  rw [Prog.ok_bind]
  refine (ok_freeJob (nameless_removeMaps .free job.maps l) fun _ _ _ => trivial).imp fun _ l _ => ?_
  rw [Prog.ok_bind]
  exact (nameless rfl l).imp fun _ _ _ => trivial

theorem named_notifFileUnavailable {freed : Bool} {Q : α → Talk → Prop} (job : Job) :
    (notifFileUnavailable job freed : JobProg α).Ok (nameSpec id) Q anyExit l := by
  unfold notifFileUnavailable
  rw [Prog.ok_bind]
  exact (nameless rfl l).imp fun _ _ _ => named_leave job .unavailable

theorem nameless_requestBlocks (site : Site) (files : List File) : (requestBlocks site files).Always (nameSpec id) := by
  refine Prog.always_foldlM (fun x file => ?_) files _
  refine Prog.always_bind ?_ fun _ _ => trivial
  refine Prog.always_bind (nameless rfl) fun buffer => ?_
  refine Prog.always_bind ?_ fun _ _ => trivial
  exact Prog.always_iterate (fileBlocksOf buffer) fun copies _ => Prog.always_iterate copies fun _ _ => nameless rfl

theorem named_notificarMap (site : Site) (job : Job) {map : Map} (h : NamedFor id (.map, map.id, map.tempResultName)) :
    (notificarMap site job map).Ok (nameSpec id) (fun _ _ => True) anyExit l := by
  unfold notificarMap
  rw [Prog.ok_bind]
  refine named_request (fun x hx => ?_) fun through l _ => ?_
  · obtain rfl := List.mem_singleton.1 hx
    exact h
  · split
    · trivial
    · exact named_leave job .died

/-- What is received leaves the job with its names. -/
abbrev KeepsNames (id : UInt16) (recv : Recv) : Prop :=
  ∀ job l, NamedJob id job → (recv job).Ok (nameSpec id) (fun x _ => NamedJob id x.1) anyExit l

variable {recv : Recv}

theorem named_rePlanMap (hrecv : KeepsNames id recv) (h : NamedJob id job) (i : ℕ) :
    (rePlanMap recv job i).Ok (nameSpec id) (fun x _ => NamedJob id x.1) anyExit l := by
  unfold rePlanMap
  rw [Prog.ok_bind]
  refine (nameless_requestBlocks .replan job.files l).imp fun files l _ => ?_
  have hjob : NamedJob id { job with files := files.1 } := ⟨h.jobID, h.partials⟩
  dsimp only
  split
  · trivial
  · rw [Prog.ok_bind]
    refine (nameless rfl l).imp fun x l _ => ?_
    split
    · exact hjob
    · rw [Prog.ok_bind]
      refine (nameless rfl l).imp fun node l _ => ?_
      rw [Prog.ok_bind]
      refine named_request (fun _ hx => absurd hx List.not_mem_nil) fun time l htime => ?_
      rw [Prog.ok_bind]
      refine (named_notificarMap .replan _ ⟨time, htime, ?_⟩).imp fun _ l _ => ?_
      · rw [h.jobID]
        rfl
      · rw [Prog.ok_bind]
        refine (hrecv _ l ?_).imp fun y _ hy => hy
        exact ⟨h.jobID, h.partials⟩

theorem named_recvResult (rounds : ℕ) : KeepsNames id (recvResult rounds) := by
  induction rounds with
  | zero => exact fun _ _ _ => trivial
  | succ rounds ih =>
    intro job l h
    unfold recvResult
    rw [Prog.ok_bind]
    refine (nameless rfl l).imp fun x l _ => ?_
    split
    · exact named_leave job .died
    · rename_i idMap result
      have hmap : (desserializeMapResult (recvResult rounds) job idMap result).Ok (nameSpec id)
          (fun job' _ => NamedJob id job') anyExit l := by
        unfold desserializeMapResult
        split
        · trivial
        · split
          · trivial
          · rw [Prog.ok_bind]
            refine (nameless rfl l).imp fun _ l _ => ?_
            split
            · exact ⟨h.jobID, h.partials⟩
            · rw [Prog.ok_bind]
              refine (nameless rfl l).imp fun _ l _ => ?_
              rw [Prog.ok_bind]
              refine (named_rePlanMap ih h _).imp fun y l hy => ?_
              split
              · exact hy
              · exact named_notifFileUnavailable y.1
      rw [Prog.ok_bind]
      exact hmap.imp fun _ _ hjob => hjob
    · rename_i idReduce failed
      have hreduce : (desserializaReduceResult job idReduce failed).Always (nameSpec id) := by
        unfold desserializaReduceResult
        split
        · exact fun _ => trivial
        · refine Prog.always_bind (nameless rfl) fun _ => ?_
          split
          · exact fun _ => trivial
          · exact Prog.always_bind (nameless rfl) fun _ _ => trivial
      rw [Prog.ok_bind]
      exact (hreduce l).imp fun _ _ _ => h

theorem named_mapPlanning (h : NamedJob id job) (copies : List Copy) :
    (mapPlanning job copies).Ok (nameSpec id) (fun job' _ => NamedJob id job') anyExit l := by
  unfold mapPlanning
  rw [Prog.ok_bind]
  refine (nameless rfl l).imp fun x l _ => ?_
  split
  · rw [Prog.ok_bind]
    exact (nameless_removeMaps .skip job.maps l).imp fun _ _ _ => h
  · rw [Prog.ok_bind]
    refine (nameless rfl l).imp fun _ l _ => ?_
    rw [Prog.ok_bind]
    refine (nameless rfl l).imp fun node l _ => ?_
    rw [Prog.ok_bind]
    refine named_request (fun _ hx => absurd hx List.not_mem_nil) fun time l htime => ?_
    rw [Prog.ok_bind]
    refine (named_notificarMap .plan _ ⟨time, htime, ?_⟩).imp fun _ l _ => ?_
    · rw [h.jobID]
      rfl
    · exact ⟨h.jobID, h.partials⟩

theorem named_planMaps (hrecv : KeepsNames id recv) (h : NamedJob id job) :
    (planMaps recv job).Ok (nameSpec id) (fun job' _ => NamedJob id job') anyExit l := by
  unfold planMaps
  rw [Prog.ok_bind]
  refine (nameless_requestBlocks .plan job.files l).imp fun files l _ => ?_
  dsimp only
  split
  · rw [Prog.ok_bind]
    have hjob : NamedJob id { job with files := files.1 } := ⟨h.jobID, h.partials⟩
    refine (Prog.ok_foldlM (K := fun _ job' _ => NamedJob id job') _ (fun _ copies _ _ _ _ hjob =>
      named_mapPlanning hjob copies) hjob).imp fun job₁ l hjob₁ => ?_
    rw [Prog.ok_bind]
    refine (Prog.ok_foldlM (K := fun _ job' _ => NamedJob id job') _ (fun _ _ _ job' l _ hjob => ?_) hjob₁).imp
      fun job₂ l hjob₂ => ?_
    · rw [Prog.ok_bind]
      exact (hrecv job' l hjob).imp fun _ _ hx => hx
    · rw [Prog.ok_bind]
      exact (nameless rfl l).imp fun _ _ _ => hjob₂
  · exact named_notifFileUnavailable _

/-! ## The reduces -/

theorem named_notificarReduce (final : Bool) (h : NamedJob id job) {reduce : Reduce}
    (hreduce : NamedFor id (.reduce, reduce.id, reduce.tempResultName)) :
    (notificarReduce final job reduce).Ok (nameSpec id) (fun _ _ => True) anyExit l := by
  unfold notificarReduce
  rw [Prog.ok_bind]
  refine (nameless rfl l).imp fun _ l _ => ?_
  rw [Prog.ok_bind]
  refine named_request (fun x hx => ?_) fun through l _ => ?_
  · obtain rfl | hx := List.mem_cons.1 hx
    · exact hreduce
    · obtain ⟨r, hr, rfl⟩ := List.mem_map.1 hx
      exact h.partials r hr
  · split
    · trivial
    · exact named_leave job .died

theorem named_rePlanMapsFromNode (hrecv : KeepsNames id recv) (h : NamedJob id job) (node : CStr) :
    (rePlanMapsFromNode recv job node).Ok (nameSpec id) (fun x _ => NamedJob id x.1) anyExit l := by
  unfold rePlanMapsFromNode
  rw [Prog.ok_bind]
  refine (nameless rfl l).imp fun _ l _ => ?_
  rw [Prog.ok_bind]
  refine (Prog.ok_foldlM (K := fun _ (x : Job × Bool) _ => NamedJob id x.1) _ (fun _ i _ x l _ hx => ?_) h).imp
    fun x l hx => ?_
  · unfold rePlanByNode
    split
    · exact hx
    · split
      · have hjob : NamedJob id { x.1 with mapsDone := x.1.mapsDone - 1 } := ⟨hx.jobID, hx.partials⟩
        rw [Prog.ok_bind]
        exact (named_rePlanMap hrecv hjob i).imp fun _ _ hy => hy
      · exact hx
  · split
    · rw [Prog.ok_bind]
      exact (nameless rfl l).imp fun _ _ _ => hx
    · exact hx

theorem named_finishFinalReduce (hrecv : KeepsNames id recv) (h : NamedJob id job) :
    (finishFinalReduce recv job).Ok (nameSpec id) (fun x _ => NamedJob id x.1) anyExit l := by
  unfold finishFinalReduce
  rw [Prog.ok_bind]
  refine (hrecv job l h).imp fun x l hx => ?_
  split
  · exact hx
  · rw [Prog.ok_bind]
    unfold copyFinalTemporal
    rw [Prog.ok_bind]
    refine (nameless rfl l).imp fun reply l _ => ?_
    split
    · rw [Prog.ok_bind]
      exact (nameless rfl l).imp fun _ _ _ => named_leave x.1 .cantCopy
    · exact hx

/-- **The final reduce** is given its name when it is set for a node. -/
theorem named_planFinalReduce (h : NamedJob id job) (node : NodeInfo) (temps : List Temp) :
    (planFinalReduce job node temps).Ok (nameSpec id) (fun job' _ => NamedJob id job') anyExit l := by
  unfold planFinalReduce
  rw [Prog.ok_bind]
  refine named_request (fun _ hx => absurd hx List.not_mem_nil) fun time l htime => ?_
  rw [Prog.ok_bind]
  refine (named_notificarReduce true ⟨h.jobID, h.partials⟩ ⟨time, htime, ?_⟩).imp fun _ l _ => ⟨h.jobID, h.partials⟩
  rw [h.jobID]
  rfl

/-- The end of a round of either planner. -/
theorem named_awaitFinalReduce {clean : Job → Job} (hrecv : KeepsNames id recv)
    (hclean : ∀ job, NamedJob id job → NamedJob id (clean job)) (h : NamedJob id job) :
    (awaitFinalReduce recv clean job).Ok (nameSpec id) (fun x _ => NamedJob id x.1) anyExit l := by
  unfold awaitFinalReduce
  rw [Prog.ok_bind]
  refine (named_finishFinalReduce hrecv h).imp fun x l hx => ?_
  split
  · exact hx
  · rw [Prog.ok_bind]
    refine (named_rePlanMapsFromNode hrecv hx _).imp fun y l hy => ?_
    split
    · exact hclean y.1 hy
    · exact named_notifFileUnavailable y.1

theorem named_orderFinalReduce {freed : Bool} (h : NamedJob id job) :
    (orderFinalReduce freed job).Ok (nameSpec id) (fun job' _ => NamedJob id job') anyExit l := by
  unfold orderFinalReduce
  rw [Prog.ok_bind]
  refine (nameless rfl l).imp fun x l _ => ?_
  split
  · exact named_notifFileUnavailable job
  · rw [Prog.ok_bind]
    exact (nameless rfl l).imp fun node l _ => named_planFinalReduce h node _

theorem named_noCombinerReducePlanning (hrecv : KeepsNames id recv) (rounds : ℕ) : ∀ {freed job l}, NamedJob id job →
    (noCombinerReducePlanning recv rounds freed job).Ok (nameSpec id) (fun job' _ => NamedJob id job') anyExit l := by
  induction rounds with
  | zero => exact fun _ => trivial
  | succ rounds ih =>
    intro freed job l h
    unfold noCombinerReducePlanning
    rw [Prog.ok_bind]
    refine (named_orderFinalReduce h).imp fun job₁ l hjob₁ => ?_
    rw [Prog.ok_bind]
    have hclean : ∀ job, NamedJob id job → NamedJob id (noCombinerClean job) := fun job hy => ⟨hy.jobID, hy.partials⟩
    refine (named_awaitFinalReduce hrecv hclean hjob₁).imp fun x l hx => ?_
    split
    · exact ih hx
    · exact hx

theorem named_combinerPartialsReducePlanning (h : NamedJob id job) :
    (combinerPartialsReducePlanning job).Ok (nameSpec id) (fun job' _ => NamedJob id job') anyExit l := by
  unfold combinerPartialsReducePlanning
  rw [Prog.ok_bind]
  refine (Prog.ok_foldlM (K := fun _ reduces _ => ∀ r ∈ reduces, NamedFor id (.reduce, r.id, r.tempResultName)) job.maps
    (fun _ map _ reduces l _ hreduces => ?_) h.partials).imp fun reduces l hreduces => ?_
  · unfold agregarAPartialReduces
    split
    · rename_i i _
      intro r hr
      -- a map that is added to a reduce leaves its name
      obtain ⟨k, hk⟩ := List.mem_iff_getElem?.1 hr
      rw [List.getElem?_modify] at hk
      obtain ⟨old, hold, rfl⟩ := Option.map_eq_some_iff.1 hk
      have hnamed := hreduces old (List.mem_of_getElem? hold)
      split
      · exact hnamed
      · exact hnamed
    · rw [Prog.ok_bind]
      refine named_request (fun _ hx => absurd hx List.not_mem_nil) fun time l htime => ?_
      intro r hr
      obtain hr | hr := List.mem_append.1 hr
      · exact hreduces r hr
      · obtain rfl := List.mem_singleton.1 hr
        refine ⟨time, htime, ?_⟩
        rw [h.jobID]
        rfl
  · have hjob : NamedJob id { job with partialReduces := reduces } := ⟨h.jobID, hreduces⟩
    rw [Prog.ok_bind]
    refine (Prog.ok_iterate (K := fun _ _ => True) reduces (fun done r rest l hsplit _ => ?_)
      trivial).imp fun _ _ _ => hjob
    have hr : r ∈ reduces := hsplit ▸ List.mem_append_right done List.mem_cons_self
    exact named_notificarReduce false hjob (hreduces r hr)

theorem named_combinerFinalReducePlanning (h : NamedJob id job) :
    (combinerFinalReducePlanning job).Ok (nameSpec id) (fun job' _ => NamedJob id job') anyExit l := by
  unfold combinerFinalReducePlanning
  rw [Prog.ok_bind]
  exact (nameless rfl l).imp fun node l _ => named_planFinalReduce h node _

theorem named_partialRounds (hrecv : KeepsNames id recv) (rounds : ℕ) : ∀ {job l}, NamedJob id job →
    (partialRounds recv rounds job).Ok (nameSpec id) (fun job' _ => NamedJob id job') anyExit l := by
  induction rounds with
  | zero => exact fun _ => trivial
  | succ rounds ih =>
    intro job l h
    unfold partialRounds
    rw [Prog.ok_bind]
    refine (named_combinerPartialsReducePlanning h).imp fun job₁ l hjob₁ => ?_
    rw [Prog.ok_bind]
    refine (Prog.ok_foldlM (K := fun _ (x : Job × List CStr) _ => NamedJob id x.1) _ (fun _ _ _ x l _ hx => ?_)
      hjob₁).imp
      fun x l hx => ?_
    · unfold recvPartial
      rw [Prog.ok_bind]
      exact (hrecv x.1 l hx).imp fun _ _ hy => hy
    · split
      · exact hx
      · rw [Prog.ok_bind]
        refine (Prog.ok_foldlM (K := fun _ (y : Job × Bool) _ => NamedJob id y.1)
          _ (fun _ node _ y l _ hy => ?_) hx).imp
          fun y l hy => ?_
        · unfold replanMaps
          rw [Prog.ok_bind]
          exact (named_rePlanMapsFromNode hrecv hy node).imp fun _ _ hz => hz
        · split
          · exact ih ⟨hy.jobID, fun _ hr => absurd hr List.not_mem_nil⟩
          · exact named_notifFileUnavailable y.1

theorem named_combinerReducePlanning (hrecv : KeepsNames id recv) (partials rounds : ℕ) : ∀ {job l}, NamedJob id job →
    (combinerReducePlanning recv partials rounds job).Ok (nameSpec id) (fun job' _ => NamedJob id job') anyExit l := by
  induction rounds with
  | zero => exact fun _ => trivial
  | succ rounds ih =>
    intro job l h
    unfold combinerReducePlanning
    rw [Prog.ok_bind]
    refine (named_partialRounds hrecv partials h).imp fun job₁ l hjob₁ => ?_
    rw [Prog.ok_bind]
    refine (named_combinerFinalReducePlanning hjob₁).imp fun job₂ l hjob₂ => ?_
    rw [Prog.ok_bind]
    have hclean : ∀ job, NamedJob id job → NamedJob id (combinerClean job) :=
      fun job hy => ⟨hy.jobID, fun _ hr => absurd hr List.not_mem_nil⟩
    refine (named_awaitFinalReduce hrecv hclean hjob₂).imp fun x l hx => ?_
    split
    · exact ih hx
    · exact hx

/-- **A job** sends names that were set for it, with the numbers of its maps and reduces. -/
theorem named_acceptJob (rounds : ℕ) (h : NamedJob id job) :
    (acceptJob rounds job).Ok (nameSpec id) (fun _ _ => True) anyExit l := by
  have hrecv : KeepsNames id (recvResult rounds) := named_recvResult rounds
  have hend : ∀ job' : Job, (finishJob job').Always (nameSpec id) := by
    intro job'
    refine Prog.always_bind (nameless rfl) fun _ => ?_
    exact Prog.always_bind (always_freeJob (nameless_removeMaps .free job'.maps)) fun _ => nameless rfl
  unfold acceptJob planJob
  rw [Prog.ok_bind, Prog.ok_bind]
  refine (named_planMaps hrecv h).imp fun job₁ l hjob₁ => ?_
  split
  · exact (named_combinerReducePlanning hrecv rounds rounds hjob₁).imp fun job₂ l _ =>
      (hend job₂ l).imp fun _ _ _ => trivial
  · exact (named_noCombinerReducePlanning hrecv rounds hjob₁).imp fun job₂ l _ => (hend job₂ l).imp fun _ _ _ => trivial

/-! ## Over all runs -/

/-- The id of the job of a thread. -/
def jobIdAt (jobs : List Submission) (t : ℕ) : UInt16 := (jobs[t]?).elim 0 Submission.id

/-- What the clock tells has no zero byte. -/
def ClockTells (_ : ℕ) (_ : World) (_ : Req) (c : Choice) : Prop := 0 ∉ c.clock.text

theorem names_rule (jobs : List Submission) :
    Pool.Rule (fun t => nameSpec (jobIdAt jobs t)) (fun _ _ => True) serve ClockTells := by
  intro t w g r c x w' _ _ hclock hserve
  refine ⟨g t, ?_, trivial⟩
  cases r with
  | getTime =>
    simp only [serve, Option.some.injEq, Prod.mk.injEq] at hserve
    obtain ⟨rfl, -⟩ := hserve
    exact hclock
  | _ => trivial

theorem names_start (rounds : ℕ) (jobs : List Submission) : (marta rounds jobs).Ok (fun t => nameSpec (jobIdAt jobs t))
    (fun _ _ _ => True) (fun _ => anyExit) fun _ _ => True := by
  refine ⟨fun _ => .start, trivial, fun t p hp => ?_⟩
  have hjob : ∃ x, jobs[t]? = some x ∧ acceptJob rounds x.job = p := by
    rwa [marta, List.getElem?_map, Option.map_eq_some_iff] at hp
  obtain ⟨x, hx, rfl⟩ := hjob
  have hid : jobIdAt jobs t = x.id := by rw [jobIdAt, hx]; rfl
  exact named_acceptJob rounds ⟨hid.symm, fun _ hr => absurd hr List.not_mem_nil⟩

/-- A name, and what it is the name of. -/
structure Naming where
  jobID : UInt16
  kind : TempKind
  number : UInt16
  name : TempName

/-- The name is sent with an order in the run, or is about to be. -/
def BuiltIn (rounds : ℕ) (jobs : List Submission) (es : List (ℕ × Choice)) (x : Naming) : Prop :=
  ∃ before after P t r submission, es = before ++ after ∧ run (Pool.step serve) (marta rounds jobs) before = some P ∧
    P.At t r ∧ (x.kind, x.number, x.name) ∈ r.names ∧ jobs[t]? = some submission ∧ x.jobID = submission.id

/-- The name was written inside the arrays. -/
def Naming.WrittenInside (x : Naming) : Prop :=
  ∃ time : Time, 0 ∉ time.text ∧ OnStack.setTempName x.kind time x.number x.jobID = some x.name.str

variable {rounds : ℕ} {jobs : List Submission} {es : List (ℕ × Choice)} {x : Naming}

theorem named_of_builtIn (hclock : ∀ e ∈ es, 0 ∉ e.2.clock.text) (h : BuiltIn rounds jobs es x) :
    ∃ time : Time, 0 ∉ time.text ∧ x.name = tempNameOf x.kind time x.number x.jobID := by
  obtain ⟨before, after, P, t, r, submission, rfl, hrun, ht, hname, hjob, hid⟩ := h
  have halong : Along (Pool.step serve) (fun P e => P.Meets ClockTells e) (marta rounds jobs) before := by
    refine (along_of_mem (P := fun e => 0 ∉ e.2.clock.text)
      fun e he => hclock e (List.mem_append_left after he)).mono ?_
    intro P e he
    unfold Pool.Meets
    split
    · exact he
    · trivial
  obtain ⟨g, -, hpre⟩ := (Pool.ok_run (names_rule jobs) (names_start rounds jobs) halong hrun).pre ht
  have hjobID : jobIdAt jobs t = x.jobID := by rw [jobIdAt, hjob, hid]; rfl
  rw [← hjobID]
  exact hpre _ hname

/-- **The names of temporary files**, over every run of any jobs, with any numbers of maps and
reduces. They have at most 59 characters, and two that are of different jobs, kinds or numbers are
different. A name is written inside the arrays just when its job and its number are at most 999. -/
theorem temp_names (rounds : ℕ) (jobs : List Submission) (es : List (ℕ × Choice))
    (hclock : ∀ e ∈ es, 0 ∉ e.2.clock.text) :
    (∀ x, BuiltIn rounds jobs es x → x.name.str.length ≤ 59 ∧ (x.WrittenInside ↔ x.jobID ≤ 999 ∧ x.number ≤ 999)) ∧
    ∀ x y, BuiltIn rounds jobs es x → BuiltIn rounds jobs es y → x.name.str = y.name.str →
      x.jobID = y.jobID ∧ x.kind = y.kind ∧ x.number = y.number := by
  constructor
  · intro x hx
    obtain ⟨time, htime, hname⟩ := named_of_builtIn hclock hx
    have hstr : x.name.str = tempText x.kind time x.number x.jobID := by
      rw [hname, str_tempNameOf x.kind htime]
    constructor
    · have hj := length_decimal_le x.jobID
      have hn := length_decimal_le x.number
      rw [hstr, length_tempText]
      omega
    · constructor
      · rintro ⟨time', -, hwritten⟩
        rw [OnStack.setTempName_eq] at hwritten
        by_contra hlarge
        rw [if_neg hlarge] at hwritten
        exact absurd hwritten.symm (Option.some_ne_none _)
      · intro hsmall
        refine ⟨time, htime, ?_⟩
        rw [OnStack.setTempName_eq, if_pos hsmall, hstr]
  · intro x y hx hy heq
    obtain ⟨time, htime, hname⟩ := named_of_builtIn hclock hx
    obtain ⟨time', htime', hname'⟩ := named_of_builtIn hclock hy
    rw [hname, hname', str_tempNameOf _ htime, str_tempNameOf _ htime'] at heq
    exact tempText_inj heq

/-- The map of a job with the id 7 is about to be sent. -/
theorem temp_names_one : ∃ x, BuiltIn 1 [oneFile 7] (planOne.dropLast.map (Prod.mk 0)) x ∧ x.jobID = 7 ∧
    x.name.str.length ≤ 59 ∧ (x.WrittenInside ↔ x.jobID ≤ 999 ∧ x.number ≤ 999) := by
  obtain ⟨P, hP, hclock, r, hr, x, hx⟩ :
    ∃ P ∈ run (Pool.step serve) (marta 1 [oneFile 7]) (planOne.dropLast.map (Prod.mk 0)),
      (∀ e ∈ planOne.dropLast.map (Prod.mk 0), 0 ∉ e.2.clock.text) ∧ ∃ r ∈ P.asked 0, ∃ x ∈ r.names, x.2.1 = 0 := by
    decide +kernel
  have hbuilt : BuiltIn 1 [oneFile 7] (planOne.dropLast.map (Prod.mk 0)) ⟨7, x.1, x.2.1, x.2.2⟩ :=
    ⟨_, [], P, 0, r, oneFile 7, (List.append_nil _).symm, hP, Pool.at_of_asked hr, hx.1, rfl, rfl⟩
  exact ⟨_, hbuilt, rfl, (temp_names 1 [oneFile 7] _ hclock).1 _ hbuilt⟩

/-- **The job 1000**: its number takes five bytes of four. -/
theorem name_overruns : ∃ x, BuiltIn 1 [oneFile 1000] (planOne.dropLast.map (Prod.mk 0)) x ∧ x.jobID = 1000 ∧
    x.kind = .map ∧ x.number = 0 ∧ OnStack.sprintf 4 1000 = none ∧ ¬x.WrittenInside := by
  obtain ⟨P, hP, r, hr, x, hx, hkind, hnumber⟩ :
      ∃ P ∈ run (Pool.step serve) (marta 1 [oneFile 1000]) (planOne.dropLast.map (Prod.mk 0)),
        ∃ r ∈ P.asked 0, ∃ x ∈ r.names, x.1 = .map ∧ x.2.1 = 0 := by
    decide +kernel
  have hbuilt : BuiltIn 1 [oneFile 1000] (planOne.dropLast.map (Prod.mk 0)) ⟨1000, x.1, x.2.1, x.2.2⟩ :=
    ⟨_, [], P, 0, r, oneFile 1000, (List.append_nil _).symm, hP, Pool.at_of_asked hr, hx, rfl, rfl⟩
  have hlarge : ¬(1000 : UInt16) ≤ 999 := by decide
  refine ⟨_, hbuilt, rfl, hkind, hnumber, by decide, ?_⟩
  rintro ⟨time, -, hwritten⟩
  rw [OnStack.setTempName_eq, if_neg fun h => absurd h.1 hlarge] at hwritten
  exact absurd hwritten.symm (Option.some_ne_none _)

end Mdfs.MaRTA
