import Mdfs.Lib.Lines
import Mdfs.Nodo.Fetch

/-!
# The file that a node joins for a reduce

`node_createTmpFileFromStringList` of `node.c` writes the parts one behind the other, in the
order in which their threads ended, and the lines of the file are sorted for the routine. A
part that does not end with a newline goes on in the part behind it.

* `joined_lines`: the file has the lines of its parts in whatever order the threads end,
  exactly if of any two temps one is empty where the other ends within a line.
-/

namespace Mdfs.Nodo

open Lib Lines

/-- `node_createTmpFileFromStringList`: the file it writes. There is nothing of a part that
is a null pointer. -/
def nodeCreateTmpFileFromStringList (stringParts : List (Option CStr)) : List UInt8 :=
  stringParts.flatMap fun part => part.getD []

/-- The file joined from the parts of a request. -/
def Fetch.joinedFile (f : Fetch) : List UInt8 := nodeCreateTmpFileFromStringList (f.tmpFileParts.map Prod.snd)

/-- **A schedule in which every temp is got**: none fails, and each thread ends with the
content of its temp. The contents are given: how a node reads one is in `TmpFile`, and the
fetch of a temp that it cannot read without a fault, one that is empty or that fills its
last page, is not among the schedules. -/
structure AllGot (content : GetTmpFileOperation → CStr) (operations : List GetTmpFileOperation) (f : Fetch)
    (schedule : List FetchEvent) : Prop where
  ended : getTmpFiles operations schedule = some f
  fine : f.failed = false
  parts : ∀ x ∈ f.tmpFileParts, x.2 = some (content x.1)

/-- **The order of the threads does not matter** for the lines of the joined file, which are
those of the temps. -/
def SameLines (content : GetTmpFileOperation → CStr) (operations : List GetTmpFileOperation) : Prop :=
  ∀ schedule₁ schedule₂ f₁ f₂, AllGot content operations f₁ schedule₁ → AllGot content operations f₂ schedule₂ →
    (lines newline f₁.joinedFile).Perm (lines newline f₂.joinedFile) ∧
      (lines newline f₁.joinedFile).Perm (operations.flatMap fun operation => lines newline (content operation))

variable {content : GetTmpFileOperation → CStr} {operations order : List GetTmpFileOperation} {f : Fetch}
  {schedule : List FetchEvent}

/-! ## Schedules and orders -/

/-- The joined file has the contents in the order of the parts. -/
theorem AllGot.joinedFile_eq (h : AllGot content operations f schedule) :
    f.joinedFile = (f.tmpFileParts.map Prod.fst).flatMap content := by
  unfold Fetch.joinedFile nodeCreateTmpFileFromStringList
  rw [List.flatMap_map, List.flatMap_map]
  exact List.flatMap_congr fun x hx => by rw [h.parts x hx, Option.getD_some]

/-- The order of the parts is one of the operations. -/
theorem AllGot.perm (h : AllGot content operations f schedule) : (f.tmpFileParts.map Prod.fst).Perm operations := by
  obtain ⟨hI, hops, hthreads⟩ := fetched h.ended
  have hall := hI.all h.fine
  rwa [hops, hthreads, List.append_nil, List.append_nil] at hall

/-- All threads are started before the first ends. -/
theorem run_create (operations threads : List GetTmpFileOperation) :
    run Fetch.step ⟨operations, threads, [], false, none⟩ (operations.map fun _ => .create) =
      some ⟨[], threads ++ operations, [], false, none⟩ := by
  induction operations generalizing threads with
  | nil => simp
  | cons operation operations ih =>
    have hstep : Fetch.step ⟨operation :: operations, threads, [], false, none⟩ .create =
        some ⟨operations, threads ++ [operation], [], false, none⟩ := rfl
    have hrest := ih (threads ++ [operation])
    rw [List.append_assoc, List.singleton_append] at hrest
    exact run_cons.2 ⟨_, hstep, hrest⟩

/-- Threads can end in any order. -/
theorem exists_run_finish (content : GetTmpFileOperation → CStr) {threads : List GetTmpFileOperation}
    (h : order.Perm threads) (parts : List (GetTmpFileOperation × Option CStr)) :
    ∃ schedule, run Fetch.step ⟨[], threads, parts, false, none⟩ schedule =
      some ⟨[], [], parts ++ order.map fun operation => (operation, some (content operation)), false, none⟩ := by
  induction order generalizing threads parts with
  | nil =>
    have hnil : threads = [] := h.nil_eq.symm
    subst hnil
    exact ⟨[], by simp⟩
  | cons operation order ih =>
    obtain ⟨i, hi, hthread⟩ := List.getElem_of_mem (h.subset List.mem_cons_self)
    have hthread? : threads[i]? = some operation := by rw [List.getElem?_eq_getElem hi, hthread]
    have hrest : order.Perm (threads.eraseIdx i) := by
      have hcons : (operation :: threads.eraseIdx i).Perm threads := by
        rw [← hthread]
        exact List.getElem_cons_eraseIdx_perm hi
      exact (h.trans hcons.symm).cons_inv
    obtain ⟨schedule, hrun⟩ := ih hrest (parts ++ [(operation, some (content operation))])
    have hstep : Fetch.step ⟨[], threads, parts, false, none⟩ (.finish i (some (content operation))) =
        some ⟨[], threads.eraseIdx i, parts ++ [(operation, some (content operation))], false, none⟩ := by
      simp [Fetch.step, hthread?, Fetch.addPartToList]
    rw [List.append_assoc, List.singleton_append] at hrun
    exact ⟨.finish i (some (content operation)) :: schedule, run_cons.2 ⟨_, hstep, hrun⟩⟩

/-- **Every order of the operations is that of a schedule.** -/
theorem exists_schedule (content : GetTmpFileOperation → CStr) (h : order.Perm operations) :
    ∃ schedule f, AllGot content operations f schedule ∧ f.tmpFileParts.map Prod.fst = order := by
  obtain ⟨schedule, hfinish⟩ := exists_run_finish content h []
  have hcreate := run_create operations []
  rw [List.nil_append] at hcreate hfinish
  have hrun := run_append.2 ⟨_, hcreate, hfinish⟩
  have hended : getTmpFiles operations ((operations.map fun _ => .create) ++ schedule) =
      some ⟨[], [], order.map fun operation => (operation, some (content operation)), false, none⟩ := by
    unfold getTmpFiles Fetch.start
    rw [hrun]
    simp
  refine ⟨_, _, ⟨hended, rfl, ?_⟩, ?_⟩
  · intro x hx
    obtain ⟨operation, -, rfl⟩ := List.mem_map.1 hx
    rfl
  · rw [List.map_map]
    exact List.map_id order

/-- **The joined file has the lines of its parts** whatever the order in which the threads
end, exactly if of any two temps one is empty where the other ends within a line. -/
theorem joined_lines (content : GetTmpFileOperation → CStr) (operations : List GetTmpFileOperation) :
    SameLines content operations ↔
      operations.Pairwise fun operation other => Apart newline (content operation) (content other) := by
  rw [← lines_perm_iff]
  constructor
  · intro h order hperm
    obtain ⟨schedule, f, hgot, horder⟩ := exists_schedule content hperm
    have hlines := (h schedule schedule f f hgot hgot).2
    rwa [hgot.joinedFile_eq, horder] at hlines
  · intro h schedule₁ schedule₂ f₁ f₂ h₁ h₂
    have hunion₁ := h _ h₁.perm
    have hunion₂ := h _ h₂.perm
    rw [← h₁.joinedFile_eq] at hunion₁
    rw [← h₂.joinedFile_eq] at hunion₂
    exact ⟨hunion₁.trans hunion₂.symm, hunion₁⟩

/-- The content of a temp that has the name of its node for its only text. -/
def textOf (operation : GetTmpFileOperation) : CStr := operation.nodeId

/-- **Two temps without a newline** make one line, which depends on the order. -/
theorem seam_lost : (∃ f, AllGot textOf [tempOf (cstr "a"), tempOf (cstr "b")] f
      [.create, .create, .finish 0 (some (cstr "a")), .finish 0 (some (cstr "b"))] ∧
        lines newline f.joinedFile = [cstr "ab"]) ∧
    (∃ f, AllGot textOf [tempOf (cstr "a"), tempOf (cstr "b")] f
      [.create, .create, .finish 1 (some (cstr "b")), .finish 0 (some (cstr "a"))] ∧
        lines newline f.joinedFile = [cstr "ba"]) ∧
    ¬SameLines textOf [tempOf (cstr "a"), tempOf (cstr "b")] := by
  have hab : ∃ f, AllGot textOf [tempOf (cstr "a"), tempOf (cstr "b")] f
      [.create, .create, .finish 0 (some (cstr "a")), .finish 0 (some (cstr "b"))] ∧
        lines newline f.joinedFile = [cstr "ab"] :=
    ⟨⟨[], [], [(tempOf (cstr "a"), some (cstr "a")), (tempOf (cstr "b"), some (cstr "b"))], false, none⟩,
      ⟨by decide, rfl, by decide⟩, by decide⟩
  have hba : ∃ f, AllGot textOf [tempOf (cstr "a"), tempOf (cstr "b")] f
      [.create, .create, .finish 1 (some (cstr "b")), .finish 0 (some (cstr "a"))] ∧
        lines newline f.joinedFile = [cstr "ba"] :=
    ⟨⟨[], [], [(tempOf (cstr "b"), some (cstr "b")), (tempOf (cstr "a"), some (cstr "a"))], false, none⟩,
      ⟨by decide, rfl, by decide⟩, by decide⟩
  refine ⟨hab, hba, fun h => ?_⟩
  obtain ⟨f₁, hgot₁, hlines₁⟩ := hab
  obtain ⟨f₂, hgot₂, hlines₂⟩ := hba
  have hperm := (h _ _ f₁ f₂ hgot₁ hgot₂).1
  rw [hlines₁, hlines₂] at hperm
  exact absurd hperm (by decide)

end Mdfs.Nodo
