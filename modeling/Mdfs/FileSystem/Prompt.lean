import Mdfs.FileSystem.Interleave
import Mdfs.FileSystem.Paths

/-!
# The prompt of the console

`currentDirId` and `currentDirPrompt` are set by `cd` and `format` only. `Leads` says
which names lead from the root down to a directory, and the prompt is to be the path that
these names make (`Located`).

* `resolveDirPath_leads`: a path that is resolved from there comes out as the path of the
  directory it resolves to.
* `prompt_tells`: the prompt is right as long as the current directory and those above it
  stay as they are.
* `prompt_stale`: a renaming, and a removal, of the current directory.
-/

namespace Mdfs.FileSystem

open Lib

variable {w v : World} {sort : NodeSort} {c : Console}

/-- **The prompt tells where the console is**: in a directory that is there, at its path. -/
structure Located (c : Console) (w : World) : Prop where
  noRoot : NoRoot w
  prompt : ∃ names, Leads w c.currentDirId names ∧ c.currentDirPrompt = canonicalPath names

/-! ## Resolving -/

section Resolving

variable {C : World → Req → Choice → Prop} {E : Stop → World → Prop}

/-- **A path that is resolved** comes out as the path of its directory. -/
theorem resolveDirPath_leads {path : CStr} {Q : Option (Dir × CStr) → World → Prop} (h : Located c w)
    (hnone : Q none w) (hsome : ∀ d path, At w d path → Q (some (d, path)) w) :
    (filesystemResolveDirPath path c.currentDirId c.currentDirPrompt).Ok (worldSpec C) Q E w := by
  obtain ⟨hw, names, hleads, hprompt⟩ := h
  obtain ⟨result, hreads, -, hat⟩ := reads_resolveDirPath hw hleads path
  rw [hprompt]
  refine hreads.ok ?_
  cases result with
  | none => exact hnone
  | some x => exact hsome x.1 x.2 (hat x.1 x.2 rfl)

end Resolving

/-! ## Changes -/

/-- The stored directory that a request changes or removes. -/
def Req.dirTouched : Req → Option Oid
  | .dirDelete id => some id
  | .dirSetParent id _ => some id
  | .dirSetName id _ => some id
  | _ => none

/-- **The condition**: the current directory and those above it stay as they are. A move or
a renaming to a place that is taken changes nothing. -/
def StaysPut (c : Console) (w : World) (r : Req) (_ : Choice) : Prop :=
  ∀ d ∈ w.dirs.docs, r.dirTouched = some d.id →
    ¬Under w.parentOf d.id c.currentDirId ∨ ∃ place ∈ r.dirPlace w, place ∈ w.dirs.docs.map Dir.place

/-- The way to a directory is there while the directories on it are. -/
theorem Leads.stay {id : Oid} {names : List CStr} (h : Leads w id names)
    (hstay : ∀ d ∈ w.dirs.docs, Under w.parentOf d.id id → d ∈ v.dirs.docs) : Leads v id names := by
  induction h with
  | root => exact .root
  | @down d names hd _ ih =>
    have hparent : w.parentOf d.id = some d.parentId := parentOf_eq_some.2 ⟨d, hd, rfl, rfl⟩
    exact .down (hstay d hd .self) (ih fun e he hunder => hstay e he (.up hparent hunder))

/-- Directories may come, and go, and change, but for those on the way to the current one. -/
theorem Located.stay (h : Located c w) (hnew : NoRoot v)
    (hstay : ∀ d ∈ w.dirs.docs, Under w.parentOf d.id c.currentDirId → d ∈ v.dirs.docs) : Located c v := by
  obtain ⟨names, hleads, hprompt⟩ := h.prompt
  exact ⟨hnew, names, hleads.stay hstay, hprompt⟩

theorem Located.congr (h : Located c w) (hd : v.dirs = w.dirs) : Located c v := by
  refine h.stay ?_ fun d hmem _ => hd ▸ hmem
  unfold NoRoot
  rw [hd]
  exact h.noRoot

/-- **One directory changed**, which is not on the way, or keeps its place. -/
theorem Located.update (h : Located c w) {id : Oid} {g : Dir → Dir} (hg : ∀ d, (g d).id = d.id)
    (hC : ∀ d ∈ w.dirs.docs, d.id = id → ¬Under w.parentOf d.id c.currentDirId ∨
      (g d).place ∈ w.dirs.docs.map Dir.place)
    (hplace : ∀ d, (g d).place = d.place → g d = d) :
    Located c { w with dirs := w.dirs.update id g } := by
  cases hd : w.dirs.findKey id with
  | none =>
    have hsame : w.dirs.update id g = w.dirs :=
      Collection.update_self fun a ha hid => absurd hid (Collection.findKey_eq_none.1 hd a ha)
    exact h.congr hsame
  | some d =>
    obtain ⟨hmem, rfl⟩ := Collection.findKey_eq_some.1 hd
    rcases hC d hmem rfl with hnot | htaken
    · refine h.stay ?_ fun e he hunder => ?_
      · intro e he
        rcases Collection.mem_update he with he | ⟨b, hb, rfl⟩
        · exact h.noRoot e he
        · rw [hg]
          exact h.noRoot b (Collection.findKey_eq_some.1 hb).1
      -- the directories on the way are not the one that changes
      · have hne : e.id ≠ d.id := fun hid => hnot (hid ▸ hunder)
        rcases Collection.docs_update_or (c := w.dirs) (k := d.id) (f := g) with hu | hu
        · change e ∈ (w.dirs.update d.id g).docs
          rw [hu]
          exact List.mem_map.2 ⟨e, he, if_neg hne⟩
        · change e ∈ (w.dirs.update d.id g).docs
          rw [hu]
          exact he
    · -- the unique index refuses the change, unless it changes nothing
      obtain ⟨e, he, hplace'⟩ := List.mem_map.1 htaken
      by_cases hid : e.id = d.id
      · obtain rfl : e = d := Collection.eq_of_key he hmem hid
        refine h.congr (Collection.update_self fun a ha haid => ?_)
        rw [Collection.eq_of_key ha hmem haid]
        exact hplace e hplace'.symm
      · exact h.congr (Collection.update_taken hmem he hid hplace')

/-- The condition on a request that gives a directory a place. -/
theorem StaysPut.taken {r : Req} {x : Choice} {id : Oid} {place : Dir → CStr × Oid} (hC : StaysPut c w r x)
    (htouched : r.dirTouched = some id) (hplace : r.dirPlace w = (w.dirs.findKey id).map place) :
    ∀ d ∈ w.dirs.docs, d.id = id →
      ¬Under w.parentOf d.id c.currentDirId ∨ place d ∈ w.dirs.docs.map Dir.place := by
  intro d hd hid
  rcases hC d hd (htouched.trans (congrArg some hid.symm)) with hnot | ⟨p, hp, htaken⟩
  · exact Or.inl hnot
  · have hfind : w.dirs.findKey id = some d := Collection.findKey_eq_some.2 ⟨hd, hid⟩
    rw [hplace, hfind, Option.map_some, Option.mem_some_iff] at hp
    rw [hp]
    exact Or.inr htaken

/-- The requests that neither make directories nor remove all of them. -/
def Req.settled : Req → Bool
  | .dirInsert _ => false
  | .dirDeleteAll => false
  | _ => true

/-- **One request** that meets the condition. -/
theorem Located.serve (h : Located c w) {r : Req} {x : Choice} (hr : r.settled = true) (hC : StaysPut c w r x) :
    Located c (serve w r x).2 := by
  cases r <;> try exact h.congr rfl
  case dirInsert d => cases hr
  case dirDeleteAll => cases hr
  case fileInsert f =>
    refine h.congr ?_
    simp only [FileSystem.serve]
    split <;> rfl
  case nodeInsert n =>
    refine h.congr ?_
    simp only [FileSystem.serve]
    split <;> rfl
  case dirDelete id =>
    refine h.stay (fun d hd => h.noRoot d (Collection.mem_remove.1 hd).1) fun d hd hunder => ?_
    refine Collection.mem_remove.2 ⟨hd, ?_⟩
    rw [decide_eq_false_iff_not]
    rintro rfl
    -- a directory that is removed is not on the way, and a removal gives no place
    rcases hC d hd rfl with hnot | ⟨place, hplace, -⟩
    · exact hnot hunder
    · cases hplace
  case dirSetParent id p =>
    refine h.update (fun _ => rfl) (hC.taken rfl rfl) fun d hplace => ?_
    simp only [Dir.place, Prod.mk.injEq] at hplace
    rw [hplace.2]
  case dirSetName id n =>
    refine h.update (fun _ => rfl) (hC.taken rfl rfl) fun d hplace => ?_
    simp only [Dir.place, Prod.mk.injEq] at hplace
    rw [hplace.1]

/-! ## Commands -/

/-- A program that makes only settled requests. -/
abbrev Settled {α : Type} (p : FsProg α) : Prop := p.Only fun r => r.settled = true

/-- **Settled requests that meet the condition** leave the prompt right. -/
theorem Settled.ok {α : Type} {p : FsProg α} (hp : Settled p) (h : Located c w) :
    p.Ok (worldSpec (StaysPut c)) (fun _ v => Located c v) (fun _ _ => True) w := by
  refine Prog.ok_mono (fun _ _ hv => hv) (fun _ _ _ => trivial) (Prog.Only.keeps hp (fun u r hr hu => ⟨trivial, ?_⟩) h)
  rintro x v ⟨i, hi, hserve⟩
  have hv : (serve u r i).2 = v := congrArg Prod.snd (Option.some.inj hserve)
  exact hv ▸ hu.serve hr hi

theorem Quiet.settled {α : Type} {p : FsProg α} (hp : Quiet p) : Settled p := by
  refine Prog.Only.mono (fun r hr => ?_) hp
  cases r <;> first | rfl | cases hr

theorem Scenery.settled {α : Type} {p : FsProg α} (hp : Scenery p) : Settled p := by
  refine Prog.Only.mono (fun r hr => ?_) hp
  cases r <;> first | rfl | cases hr

theorem settled_request {r : Req} (hr : r.settled = true) : Settled (request r) := ⟨hr, fun _ => trivial⟩

theorem settled_resolveFilePath (path : CStr) (id : Oid) (start : CStr) :
    Settled (filesystemResolveFilePath path id start) := by
  unfold filesystemResolveFilePath
  split
  · refine Prog.only_bind (quiet_resolveDirPath _ _ _).settled fun x => ?_
    cases x with
    | none => trivial
    | some x => exact settled_request rfl
  · refine Prog.only_bind (quiet_startingDir _).settled fun d => ?_
    cases d with
    | none => trivial
    | some d => exact settled_request rfl

theorem settled_deleteFile (f : File) : Settled (filesystemDeleteFile (some f)) :=
  Prog.only_bind (Scenery.settled (scenery_freeBlockCopies _)) fun _ => settled_request rfl

theorem settled_deleteDir : ∀ fuel (d : Option Dir), Settled (filesystemDeleteDir fuel d) := by
  intro fuel
  induction fuel with
  | zero => intro d; trivial
  | succ fuel ih =>
    intro d
    cases d with
    | none => trivial
    | some d =>
      refine Prog.only_bind (settled_request rfl) fun files => ?_
      refine Prog.only_bind (Prog.only_iterate (fun f => ?_) _) fun _ => ?_
      · exact Prog.only_bind (settled_deleteFile f) fun _ => trivial
      · refine Prog.only_bind (settled_request rfl) fun dirs => ?_
        refine Prog.only_bind (Prog.only_iterate (fun child => ?_) _) fun _ => settled_request rfl
        exact Prog.only_bind (ih (some child)) fun _ => trivial

theorem settled_rm (fuel : ℕ) (parameter1 parameter2 : Option CStr) :
    Settled (deleteResource fuel c parameter1 parameter2) := by
  unfold deleteResource
  cases parameter1 with
  | none => trivial
  | some parameter1 =>
    dsimp only
    split
    · cases parameter2 with
      | none => trivial
      | some path =>
        refine Prog.only_bind (p := notNull (some path)) trivial fun path => ?_
        refine Prog.only_bind (quiet_resolveDirPath _ _ _).settled fun x => ?_
        cases x with
        | none => trivial
        | some x => exact Prog.only_bind (settled_deleteDir fuel _) fun _ => trivial
    · refine Prog.only_bind (settled_resolveFilePath _ _ _) fun f => ?_
      cases f with
      | none => trivial
      | some f => exact Prog.only_bind (settled_deleteFile f) fun _ => trivial

theorem settled_mv (resource destination : Option CStr) : Settled (moveResource c resource destination) := by
  unfold moveResource
  split
  · refine Prog.only_bind (quiet_resolveDirPath _ _ _).settled fun x => ?_
    cases x with
    | none => trivial
    | some x =>
      refine Prog.only_bind (quiet_resolveDirPath _ _ _).settled fun y => ?_
      cases y with
      | some y => exact settled_request rfl
      | none =>
        refine Prog.only_bind (settled_resolveFilePath _ _ _) fun f => ?_
        cases f with
        | none => trivial
        | some f => exact settled_request rfl
  · trivial

theorem settled_rename (resource newName : Option CStr) : Settled (renameResource c resource newName) := by
  unfold renameResource
  split
  · refine Prog.only_bind (quiet_resolveDirPath _ _ _).settled fun x => ?_
    cases x with
    | some x => exact settled_request rfl
    | none =>
      refine Prog.only_bind (settled_resolveFilePath _ _ _) fun f => ?_
      cases f with
      | none => trivial
      | some f => exact settled_request rfl
  · trivial

/-- **`mkdir`**: the new directory has an id of its own. -/
theorem located_mkdir (h : Located c w) (dirName : Option CStr) :
    (makeDir c dirName).Ok (worldSpec (StaysPut c)) (fun _ v => Located c v) (fun _ _ => True) w := by
  unfold makeDir
  cases dirName with
  | none => exact h
  | some dirName =>
    dsimp only
    rw [Prog.ok_bind]
    refine addDir_places (fun v hd _ => h.congr hd) fun v u x n _ _ _ _ _ _ hins => ?_
    obtain ⟨-, hdocs⟩ := Collection.insert_eq_some.1 hins
    refine h.stay (fun d hd => ?_) fun d hd _ => ?_
    · rw [hdocs] at hd
      rcases List.mem_append.1 hd with hd | hd
      · exact h.noRoot d hd
      · rw [List.mem_singleton.1 hd]
        exact Oid.noConfusion
    · rw [hdocs]
      exact List.mem_append_left _ hd

/-- **`cd`**: the console is in the directory that the path leads to, at its path. -/
theorem located_cd (h : Located c w) (dirName : Option CStr) :
    (changeDir c dirName).Ok (worldSpec (StaysPut c)) (fun c' v => Located c' v) (fun _ _ => True) w := by
  unfold changeDir
  rw [Prog.ok_bind]
  refine resolveDirPath_leads h h fun d path hat => ?_
  exact ⟨h.noRoot, hat.2⟩

theorem located_format :
    c.format.Ok (worldSpec (StaysPut c)) (fun c' v => Located c' v) (fun _ _ => True) w := by
  unfold Console.format
  rw [Prog.ok_bind]
  refine format_ok fun nodes _ _ => ?_
  exact ⟨fun d hd => absurd hd List.not_mem_nil, [], .root, rfl⟩

/-- `cp -fromfs` leaves the directories as they are. -/
theorem located_cp (h : Located c w) (source dest : Option CStr) :
    (copyFileFromfs sort c source dest).Ok (worldSpec (StaysPut c)) (fun _ v => Located c v) (fun _ _ => True) w := by
  have hcopy : ∀ name parentId route, (filesystemCopyFileFromFS sort route ⟨.root, parentId, name, 0, []⟩).Ok
      (worldSpec (StaysPut c)) (fun _ v => Located c v) (fun _ _ => True) w := by
    intro name parentId route
    exact copyFileFromFS_places (fun _ _ => trivial) (fun _ v hd _ => h.congr hd) (fun _ v _ hd _ => h.congr hd)
      fun v _ _ _ _ hd _ => h.congr hd
  unfold copyFileFromfs
  split
  case h_2 => exact h
  case h_1 source dest =>
    rw [Prog.ok_bind]
    refine getFileName_ok trivial fun localFileName => ?_
    simp only [copyDestination, Prog.ok_bind]
    refine resolveDirPath_ok trivial ?_ fun d _ _ => ?_
    · rw [Prog.ok_bind]
      refine getFileName_ok trivial fun destFileName => ?_
      split
      · rw [Prog.ok_bind]
        refine resolveDirPath_ok trivial h fun d _ _ => ?_
        simp only [Prog.ok_pure, Prog.ok_bind]
        exact hcopy _ _ _
      · simp only [Prog.ok_pure, Prog.ok_bind]
        exact hcopy _ _ _
    · simp only [Prog.ok_pure, Prog.ok_bind]
      exact hcopy _ _ _

/-- **Every action** that meets the condition leaves the prompt right. -/
theorem located_prog (h : Located c w) (fuel : ℕ) (x : Action) :
    (x.prog sort fuel c).Ok (worldSpec (StaysPut c)) (fun c' v => Located c' v) (fun _ _ => True) w := by
  cases x with
  | importResult nodeId finalTmpName resultFilePath =>
    simp only [Action.prog, Prog.ok_bind, Prog.ok_pure]
    exact copyTmpFileToMDFS_places (fun _ _ => trivial) (fun _ v hd _ => h.congr hd) fun _ v _ _ _ hd _ => h.congr hd
  | command cmd =>
    simp only [Action.prog]
    cases cmd <;> simp only [Command.prog, Prog.ok_bind, Prog.ok_pure]
    case rm parameter1 parameter2 => exact (settled_rm fuel parameter1 parameter2).ok h
    case mv resource destination => exact (settled_mv resource destination).ok h
    case rename resource newName => exact (settled_rename resource newName).ok h
    case mkdir dirName => exact located_mkdir h dirName
    case cpFromfs source dest => exact located_cp h source dest
    case format => exact located_format
    case cd dirName => exact located_cd h dirName

/-! ## Sessions -/

/-- **The prompt tells where the console is.** From a store without directories, after
every session in which the current directory and those above it stay as they are: the
current directory is the root or stored, and the prompt is its path. -/
theorem prompt_tells (sort : NodeSort) (w : World) (es : List (Action × ℕ × List Choice)) (s : Session)
    (hdirs : w.dirs.docs = [])
    (hC : Along (Session.step sort) (Session.Meets sort StaysPut) ⟨.start, w⟩ es)
    (hrun : run (Session.step sort) ⟨.start, w⟩ es = some s) :
    s.world.HasDir s.console.currentDirId ∧
      ∃ names, Leads s.world s.console.currentDirId names ∧ s.console.currentDirPrompt = canonicalPath names := by
  have hstart : Located .start w := ⟨fun d hd => absurd (hdirs ▸ hd) List.not_mem_nil, [], .root, rfl⟩
  have hlocated : Located s.console s.world :=
    run_inv (I := fun s => Located s.console s.world) (fun _ x _ hs hm hstep =>
      Session.step_ok (I := fun s => Located s.console s.world) (located_prog hs x.2.1 x.1) hm hstep) hstart hC hrun
  obtain ⟨names, hleads, hprompt⟩ := hlocated.prompt
  exact ⟨hleads.hasDir, names, hleads, hprompt⟩

/-- The condition as it is computed, for changes that take no place. -/
def StaysPutUp (c : Console) (w : World) (r : Req) (_ : Choice) : Prop :=
  ∀ d ∈ w.dirs.docs, r.dirTouched = some d.id → clear w.parentOf d.id (w.dirs.docs.length + 1) c.currentDirId = true

instance decidableStaysPutUp (c : Console) (w : World) (r : Req) (x : Choice) : Decidable (StaysPutUp c w r x) :=
  inferInstanceAs (Decidable (∀ d ∈ w.dirs.docs, r.dirTouched = some d.id →
    clear w.parentOf d.id (w.dirs.docs.length + 1) c.currentDirId = true))

theorem StaysPutUp.staysPut {r : Req} {x : Choice} (h : StaysPutUp c w r x) : StaysPut c w r x :=
  fun d hd hr => Or.inl (not_under_of_clear (h d hd hr))

/-- `mkdir a`, `mkdir x`, `mv x a`, `cd a`, `mkdir b`, `cd b`, `rename ../x y`, `cd ../y`, `rm -r /a/b`. -/
def wander : List (Action × ℕ × List Choice) :=
  [(.command (.mkdir (par "a")), 0, List.replicate 4 .done), (.command (.mkdir (par "x")), 0, List.replicate 4 .done),
    (.command (.mv (par "x") (par "a")), 0, List.replicate 3 .done), (.command (.cd (par "a")), 0, [.done]),
    (.command (.mkdir (par "b")), 0, List.replicate 4 .done), (.command (.cd (par "b")), 0, List.replicate 2 .done),
    (.command (.rename (par "../x") (par "y")), 0, List.replicate 4 .done),
    (.command (.cd (par "../y")), 0, List.replicate 3 .done),
    (.command (.rm (par "-r") (par "/a/b")), 1, List.replicate 5 .done)]

theorem prompt_tells_wander : ∃ s, run (Session.step insertionSort) ⟨.start, .empty fun _ => []⟩ wander = some s ∧
    s.console.currentDirPrompt = cstr "/a/y" ∧ s.console.currentDirId = .gen 1 ∧
    s.world.HasDir s.console.currentDirId ∧
      ∃ names, Leads s.world s.console.currentDirId names ∧ s.console.currentDirPrompt = canonicalPath names := by
  obtain ⟨s, hs, hprompt, hid⟩ : ∃ s ∈ run (Session.step insertionSort) ⟨.start, .empty fun _ => []⟩ wander,
      s.console.currentDirPrompt = cstr "/a/y" ∧ s.console.currentDirId = .gen 1 := by decide +kernel
  have hup : Along (Session.step insertionSort) (Session.Meets insertionSort StaysPutUp)
      ⟨.start, .empty fun _ => []⟩ wander := by decide +kernel
  exact ⟨s, hs, hprompt, hid, prompt_tells _ _ _ s rfl
    (hup.mono fun _ _ h => Prog.Along.mono (fun _ _ _ => StaysPutUp.staysPut) h) hs⟩

/-- `mkdir a`, `cd a`. -/
def enterA : List (Action × ℕ × List Choice) :=
  [(.command (.mkdir (par "a")), 0, List.replicate 4 .done), (.command (.cd (par "a")), 0, [.done])]

/-- **The prompt gone stale**: `/a` is shown in a directory that is called `b`, and in one
that is gone. -/
theorem prompt_stale :
    (∃ s, run (Session.step insertionSort) ⟨.start, .empty fun _ => []⟩
        (enterA ++ [(.command (.rename (par "/a") (par "b")), 0, List.replicate 2 .done)]) = some s ∧
      s.console.currentDirPrompt = cstr "/a" ∧ s.world.dirs.docs = [⟨.gen 0, .root, cstr "b"⟩] ∧
      ¬∃ names, Leads s.world s.console.currentDirId names ∧ s.console.currentDirPrompt = canonicalPath names) ∧
    ∃ s, run (Session.step insertionSort) ⟨.start, .empty fun _ => []⟩
        (enterA ++ [(.command (.rm (par "-r") (par "/a")), 1, List.replicate 4 .done)]) = some s ∧
      s.console.currentDirPrompt = cstr "/a" ∧ ¬s.world.HasDir s.console.currentDirId := by
  constructor
  · obtain ⟨s, hs, hprompt, hid, hdocs⟩ : ∃ s ∈ run (Session.step insertionSort) ⟨.start, .empty fun _ => []⟩
        (enterA ++ [(.command (.rename (par "/a") (par "b")), 0, List.replicate 2 .done)]),
        s.console.currentDirPrompt = cstr "/a" ∧ s.console.currentDirId = .gen 0 ∧
        s.world.dirs.docs = [⟨.gen 0, .root, cstr "b"⟩] := by decide +kernel
    refine ⟨s, hs, hprompt, hdocs, ?_⟩
    rintro ⟨names, hleads, hpath⟩
    have hw : NoRoot s.world := by
      unfold NoRoot
      rw [hdocs]
      decide
    obtain ⟨d, hd, -, above, rfl, habove⟩ := hleads.up (by rw [hid]; decide)
    rw [hdocs, List.mem_singleton] at hd
    rw [hd] at habove hpath
    rw [habove.of_root hw rfl, hprompt] at hpath
    exact absurd hpath (by decide)
  · obtain ⟨s, hs, hprompt, hid⟩ : ∃ s ∈ run (Session.step insertionSort) ⟨.start, .empty fun _ => []⟩
        (enterA ++ [(.command (.rm (par "-r") (par "/a")), 1, List.replicate 4 .done)]),
        s.console.currentDirPrompt = cstr "/a" ∧ ¬s.world.HasDir s.console.currentDirId := by decide +kernel
    exact ⟨s, hs, hprompt, hid⟩

end Mdfs.FileSystem
