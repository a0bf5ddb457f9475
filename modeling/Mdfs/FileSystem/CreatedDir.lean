import Mdfs.FileSystem.Paths
import Mdfs.FileSystem.ResultPath

/-!
# Whether a created directory can be entered

`mkdir` and `rename` store the text as it is typed; `filesystem_resolveDirPath` cuts it at the slashes, and takes
`.` and `..` for what they mean. A directory is found by its own name just when that is a name of a path (`IsName`).

That it is found at all rests on two things that every session keeps (`Grounded`): if the current directory is there,
so are those above it, and no id is given out twice.

* `resolveDirPath_rule`: what holds of every directory that a path goes through.
* `grounded_run`: every session keeps them.
* `created_dir_found`: the directory that `mkdir` creates, and one that is renamed.
* `created_dir_lost`: names that are not names of a path.
-/

namespace Mdfs.FileSystem

open Lib

variable {C : World → Req → Choice → Prop} {E : Stop → World → Prop} {w v : World} {sort : NodeSort} {c : Console}
  {d e : Dir} {id a : Oid} {path start name : CStr}

/-! ## Going along a path -/

/-- A name of a path. -/
def IsName (name : CStr) : Prop := name ≠ [] ∧ 47 ∉ name ∧ name ≠ cstr "." ∧ name ≠ cstr ".."

instance (name : CStr) : Decidable (IsName name) :=
  inferInstanceAs (Decidable (name ≠ [] ∧ 47 ∉ name ∧ name ≠ cstr "." ∧ name ≠ cstr ".."))

/-- What holds of a directory, and of those above it and in it under a name of a path. -/
structure PassedOn (w : World) (J : Dir → Prop) : Prop where
  up : ∀ {d e}, J d → d.id ≠ .root → e ∈ w.dirs.docs → e.id = d.parentId → J e
  down : ∀ {d e}, J d → e ∈ w.dirs.docs → e.parentId = d.id → IsName e.name → J e
  root : J rootDir

theorem resolveParent_rule {J : Dir → Prop} (hJ : PassedOn w J) {Q : Dir × CStr → World → Prop}
    (hE : E .crash w) (hd : J d)
    (hQ : ∀ e path, J e → Q (e, path) w) : (resolveParent d path).Ok (worldSpec C) Q E w := by
  unfold resolveParent
  by_cases hroot : d.id = .root
  · rw [if_pos (by simpa [filesystemIsRootDir, filesystemIsRootDirId] using hroot)]
    exact hQ _ _ hd
  · rw [if_neg (by simpa [filesystemIsRootDir, filesystemIsRootDirId] using hroot)]
    dsimp only
    split
    · exact hQ _ _ hJ.root
    · simp only [filesystemGetDirById, mongoDirGetById, Prog.ok_bind, ok_ask, Prog.ok_ret, serve]
      intro _ _
      cases he : w.dirs.findKey d.parentId with
      | none => exact hE
      | some e =>
        obtain ⟨hmem, hid⟩ := Collection.findKey_eq_some.1 he
        exact hQ _ _ (hJ.up hd hroot hmem hid)

theorem resolveDirNames_rule {J : Dir → Prop} (hJ : PassedOn w J) {Q : Option (Dir × CStr) → World → Prop}
    (hE : E .crash w)
    (hQ : ∀ x : Option (Dir × CStr), (∀ y ∈ x, J y.1) → Q x w) : ∀ {names : List CStr} {d : Dir} {path : CStr},
    (∀ name ∈ names, name ≠ [] ∧ 47 ∉ name) → J d → (resolveDirNames names d path).Ok (worldSpec C) Q E w := by
  intro names
  induction names with
  | nil =>
    intro d path _ hd
    refine hQ _ fun y hy => ?_
    obtain rfl := Option.some.inj hy
    exact hd
  | cons name names ih =>
    intro d path hnames hd
    have hrest : ∀ n ∈ names, n ≠ [] ∧ 47 ∉ n := fun n hn => hnames n (List.mem_cons_of_mem name hn)
    obtain ⟨hne, hslash⟩ := hnames name List.mem_cons_self
    rw [resolveDirNames]
    split
    · exact ih hrest hd
    · rename_i hdot
      split
      · rw [Prog.ok_bind]
        exact resolveParent_rule hJ hE hd fun e path he => ih hrest he
      · rename_i hdots
        simp only [filesystemGetDirByNameInDir, mongoDirGetByNameInDir, Prog.ok_bind, ok_ask, Prog.ok_ret, serve]
        intro _ _
        cases he : w.dirs.findIdx (name, d.id) with
        | none => exact hQ _ fun y hy => absurd hy (Option.not_mem_none y)
        | some e =>
          obtain ⟨hmem, hplace⟩ := Collection.findIdx_eq_some.1 he
          obtain ⟨hname, hparent⟩ := Prod.mk.inj hplace
          have hisname : IsName e.name := by
            rw [hname]
            exact ⟨hne, hslash, fun h => hdot (Or.inr h), hdots⟩
          exact ih hrest (hJ.down hd hmem hparent hisname)

/-- **Every directory that a path goes through**: what holds of the first one and is passed up and down holds of the
one that it comes to. -/
theorem resolveDirPath_rule {J : Dir → Prop} (hJ : PassedOn w J) {Q : Option (Dir × CStr) → World → Prop}
    (hE : E .crash w)
    (hstart : ∀ d, d ∈ w.dirs.docs → d.id = id → J d) (hQ : ∀ x : Option (Dir × CStr), (∀ y ∈ x, J y.1) → Q x w) :
    (filesystemResolveDirPath path id start).Ok (worldSpec C) Q E w := by
  have hpieces : ∀ (s : CStr), ∀ name ∈ stringSplit s 47, name ≠ [] ∧ 47 ∉ name :=
    fun s name hmem => ⟨ne_nil_of_mem_pieces hmem, notMem_of_mem_stringSplit hmem⟩
  unfold filesystemResolveDirPath
  split
  · exact resolveDirNames_rule hJ hE hQ (hpieces _) hJ.root
  · unfold startingDir
    split
    · exact resolveDirNames_rule hJ hE hQ (hpieces _) hJ.root
    · simp only [filesystemGetDirById, mongoDirGetById, Prog.ok_bind, ok_ask, Prog.ok_ret, serve]
      intro _ _
      cases hd : w.dirs.findKey id with
      | none => exact hQ _ fun y hy => absurd hy (Option.not_mem_none y)
      | some d =>
        obtain ⟨hmem, hid⟩ := Collection.findKey_eq_some.1 hd
        exact resolveDirNames_rule hJ hE hQ (hpieces _) (hstart d hmem hid)

/-! ## What every session keeps -/

/-- The directories above one are there, and it is. -/
def World.Standing (w : World) (id : Oid) : Prop := ∀ a, Under w.parentOf a id → w.HasDir a

/-- An id that has been given out. -/
def World.Issued (w : World) (id : Oid) : Prop := ∀ n, id = .gen n → n < w.oids

theorem World.Standing.has (h : w.Standing id) : w.HasDir id := h id .self

theorem standing_root (hw : NoRoot w) : w.Standing .root := by
  intro a ha
  cases ha with
  | self => exact Or.inl rfl
  | up hp _ =>
    obtain ⟨d, hd, hid, -⟩ := parentOf_eq_some.1 hp
    exact absurd hid (hw d hd)

theorem World.Standing.up (h : w.Standing d.id) (hd : d ∈ w.dirs.docs) : w.Standing d.parentId :=
  fun a ha => h a (.up (parentOf_eq_some.2 ⟨d, hd, rfl, rfl⟩) ha)

theorem World.Standing.down (h : w.Standing d.parentId) (hd : d ∈ w.dirs.docs) : w.Standing d.id := by
  intro a ha
  cases ha with
  | self => exact Or.inr ⟨d, hd, rfl⟩
  | up hp hb =>
    obtain ⟨e, he, hid, rfl⟩ := parentOf_eq_some.1 hp
    obtain rfl : e = d := Collection.eq_of_key he hd hid
    exact h a hb

/-- Directories that are closed under parents, and there. -/
theorem standing_of_closed {s : Oid → Prop} (hhas : ∀ a, s a → v.HasDir a)
    (hup : ∀ a b, s a → v.parentOf a = some b → s b)
    (hid : s id) : v.Standing id := fun a ha => hhas a (ha.of_closed hup hid)

/-- **What a session keeps**: the current directory has those above it, if it is there; ids are not given out twice. -/
structure Grounded (c : Console) (w : World) : Prop where
  noRoot : NoRoot w
  issued : ∀ d ∈ w.dirs.docs, w.Issued d.id ∧ w.Issued d.parentId
  current : w.Issued c.currentDirId
  standing : w.HasDir c.currentDirId → w.Standing c.currentDirId

theorem World.Issued.mono (h : w.Issued id) (ho : w.oids ≤ v.oids) : v.Issued id := fun n hn => (h n hn).trans_le ho

theorem issued_root (w : World) : w.Issued .root := fun _ hn => Oid.noConfusion hn

theorem Grounded.issued_has (h : Grounded c w) (hid : w.HasDir id) : w.Issued id := by
  rcases hid with rfl | ⟨d, hd, rfl⟩
  · exact issued_root w
  · exact (h.issued d hd).1

/-- What is kept is a matter of the directories. -/
theorem Grounded.same (h : Grounded c w) (hd : v.dirs = w.dirs) (ho : w.oids ≤ v.oids) : Grounded c v := by
  have hpar : v.parentOf = w.parentOf := funext fun a => by simp only [World.parentOf, hd]
  have hhas : ∀ a, v.HasDir a ↔ w.HasDir a := fun a => by simp only [World.HasDir, hd]
  refine ⟨?_, ?_, h.current.mono ho, ?_⟩
  · unfold NoRoot
    rw [hd]
    exact h.noRoot
  · intro e he
    obtain ⟨hid, hparent⟩ := h.issued e (hd ▸ he)
    exact ⟨hid.mono ho, hparent.mono ho⟩
  · intro hcur a ha
    rw [hpar] at ha
    exact (hhas a).2 (h.standing ((hhas _).1 hcur) a ha)

/-- **A removal**: what is left has the directories above it left. -/
theorem Grounded.cleared (h : Grounded c w) (hc : Cleared w v) (ho : w.oids ≤ v.oids) : Grounded c v := by
  have hsub : ∀ id, v.HasDir id → w.HasDir id := by
    rintro id (hid | ⟨e, he, hid⟩)
    · exact Or.inl hid
    · exact Or.inr ⟨e, hc.dirs e he, hid⟩
  refine ⟨fun d hd => h.noRoot d (hc.dirs d hd), ?_, h.current.mono ho, ?_⟩
  · intro d hd
    obtain ⟨hid, hparent⟩ := h.issued d (hc.dirs d hd)
    exact ⟨hid.mono ho, hparent.mono ho⟩
  · intro hcur
    refine standing_of_closed (s := fun a => w.Standing a ∧ v.HasDir a) (fun a ha => ha.2)
      ?_ ⟨h.standing (hsub _ hcur), hcur⟩
    rintro a b ⟨ha, -⟩ hab
    obtain ⟨d, hd, rfl, rfl⟩ := parentOf_eq_some.1 hab
    have hup := ha.up (hc.dirs d hd)
    refine ⟨hup, ?_⟩
    rcases hup.has with hroot | ⟨e, he, hid⟩
    · exact Or.inl hroot
    · by_cases hleft : e ∈ v.dirs.docs
      · exact Or.inr ⟨e, hleft, hid⟩
      · exact absurd hid.symm (hc.dirLeft e he hleft d hd)

/-- **One directory changed**: its parent is as it was, or one that stands. -/
theorem Grounded.updated (h : Grounded c w) {g : Dir → Dir} (hg : ∀ d, (g d).id = d.id)
    (hparent : ∀ d, (g d).parentId = d.parentId ∨ w.Standing (g d).parentId) :
    Grounded c { w with dirs := w.dirs.update id g } := by
  have hhas : ∀ a, World.HasDir { w with dirs := w.dirs.update id g } a ↔ w.HasDir a := fun a => hasDir_update hg
  refine ⟨?_, ?_, h.current, ?_⟩
  · intro e he
    rcases Collection.mem_update he with he | ⟨b, hb, rfl⟩
    · exact h.noRoot e he
    · rw [hg]
      exact h.noRoot b (Collection.findKey_eq_some.1 hb).1
  · intro e he
    rcases Collection.mem_update he with he | ⟨b, hb, rfl⟩
    · exact h.issued e he
    · obtain ⟨hid, hup⟩ := h.issued b (Collection.findKey_eq_some.1 hb).1
      refine ⟨hg b ▸ hid, ?_⟩
      rcases hparent b with hsame | hstands
      · rw [hsame]
        exact hup
      · exact h.issued_has hstands.has
  · intro hcur
    refine standing_of_closed (s := w.Standing) (fun a ha => (hhas a).2 ha.has) ?_ (h.standing ((hhas _).1 hcur))
    intro a b ha hab
    obtain ⟨e, he, rfl, rfl⟩ := parentOf_eq_some.1 hab
    rcases Collection.mem_update he with he | ⟨d, hd, rfl⟩
    · exact ha.up he
    · rcases hparent d with hsame | hstands
      · rw [hg] at ha
        rw [hsame]
        exact ha.up (Collection.findKey_eq_some.1 hd).1
      · exact hstands

/-- **A new directory** in the current one has an id of its own. -/
theorem Grounded.added (h : Grounded c w) (hid : d.id = .gen w.oids) (hparent : d.parentId = c.currentDirId)
    (hdocs : v.dirs.docs = w.dirs.docs ++ [d]) (ho : w.oids < v.oids) : Grounded c v := by
  have hold : ∀ e ∈ v.dirs.docs, w.Issued e.id → e ∈ w.dirs.docs := by
    intro e he hissued
    rw [hdocs] at he
    refine (List.mem_append.1 he).resolve_right fun hnew => ?_
    obtain rfl := List.mem_singleton.1 hnew
    exact lt_irrefl _ (hissued _ hid)
  refine ⟨?_, ?_, h.current.mono ho.le, ?_⟩
  · intro e he
    rw [hdocs] at he
    rcases List.mem_append.1 he with he | he
    · exact h.noRoot e he
    · rw [List.mem_singleton.1 he, hid]
      exact Oid.noConfusion
  · intro e he
    rw [hdocs] at he
    rcases List.mem_append.1 he with he | he
    · obtain ⟨hissued, hup⟩ := h.issued e he
      exact ⟨hissued.mono ho.le, hup.mono ho.le⟩
    · obtain rfl := List.mem_singleton.1 he
      refine ⟨fun n hn => ?_, hparent ▸ h.current.mono ho.le⟩
      have hsame : w.oids = n := Oid.gen.inj (hid.symm.trans hn)
      omega
  · intro hcur
    have hhas : w.HasDir c.currentDirId := by
      rcases hcur with hroot | ⟨e, he, hid⟩
      · exact Or.inl hroot
      · exact Or.inr ⟨e, hold e he (hid ▸ h.current), hid⟩
    have hgrow : ∀ a, w.HasDir a → v.HasDir a := by
      rintro a (hroot | ⟨e, he, hid⟩)
      · exact Or.inl hroot
      · exact Or.inr ⟨e, hdocs ▸ List.mem_append_left _ he, hid⟩
    refine standing_of_closed (s := w.Standing) (fun a ha => hgrow a ha.has) ?_ (h.standing hhas)
    intro a b ha hab
    obtain ⟨e, he, rfl, rfl⟩ := parentOf_eq_some.1 hab
    exact ha.up (hold e he (h.issued_has ha.has))

/-- **Another current directory**, which stands. -/
theorem Grounded.entered (h : Grounded c w) (hid : w.Standing id) (path : CStr) : Grounded ⟨path, id⟩ w :=
  ⟨h.noRoot, h.issued, h.issued_has hid.has, fun _ => hid⟩

theorem grounded_empty (hdirs : w.dirs.docs = []) (path : CStr) : Grounded ⟨path, .root⟩ w := by
  have hnone : NoRoot w := by
    intro d hd
    rw [hdirs] at hd
    cases hd
  refine ⟨hnone, fun d hd => ?_, issued_root w, fun _ => standing_root hnone⟩
  rw [hdirs] at hd
  cases hd

/-! ## The commands -/

theorem serve_oids (w : World) (r : Req) (x : Choice) : w.oids ≤ (serve w r x).2.oids := by
  cases r <;> try exact le_rfl
  case generateId => exact Nat.le_succ _
  all_goals
    simp only [serve]
    split <;> exact le_rfl

/-- No program takes an id back. -/
theorem issuing {α : Type} {p : FsProg α} {Q : α → World → Prop} (hp : p.Ok (worldSpec C) Q E w) :
    p.Ok (worldSpec C) (fun x v => Q x v ∧ w.oids ≤ v.oids) E w := by
  refine hp.and_keeps (I := fun v => w.oids ≤ v.oids) ?_ le_rfl
  rintro u r x v hu ⟨i, -, hserve⟩
  have hv : (serve u r i).2 = v := congrArg Prod.snd (Option.some.inj hserve)
  exact hv ▸ hu.trans (serve_oids u r i)

/-- A path from the current directory goes through directories that stand. -/
theorem Grounded.resolve (h : Grounded c w) {Q : Option (Dir × CStr) → World → Prop} (hE : E .crash w)
    (hnone : Q none w)
    (hsome : ∀ d path, w.IsDir d → w.Standing d.id → Q (some (d, path)) w) :
    (filesystemResolveDirPath path c.currentDirId start).Ok (worldSpec C) Q E w := by
  refine resolveDirPath_rule (J := fun d => w.IsDir d ∧ w.Standing d.id) ⟨?_, ?_, ?_⟩ hE ?_ ?_
  · rintro d e ⟨hdir, hd⟩ hroot he hid
    have hmem : d ∈ w.dirs.docs := hdir.resolve_left fun heq => hroot (congrArg Dir.id heq)
    exact ⟨Or.inr he, hid ▸ hd.up hmem⟩
  · rintro d e ⟨-, hd⟩ he hparent -
    exact ⟨Or.inr he, World.Standing.down (hparent ▸ hd) he⟩
  · exact ⟨Or.inl rfl, standing_root h.noRoot⟩
  · intro d hd hid
    exact ⟨Or.inr hd, hid ▸ h.standing (Or.inr ⟨d, hd, hid⟩)⟩
  · intro x hx
    cases x with
    | none => exact hnone
    | some y =>
      obtain ⟨hdir, hstands⟩ := hx y rfl
      exact hsome y.1 y.2 hdir hstands

/-- **`filesystem_addDir`**: a directory with the next id, or none. -/
theorem addDir_new {d : Dir} : (filesystemAddDir d).Ok (worldSpec C) (fun added v =>
    (added = false ∧ v.dirs = w.dirs) ∨
      (added = true ∧ v.oids = w.oids + 1 ∧ v.dirs.docs = w.dirs.docs ++ [{ d with id := .gen w.oids }]))
    E w := by
  refine addDir_ok (fun oids _ => Or.inl ⟨rfl, rfl⟩) fun dirs c _ _ _ hins => ?_
  exact Or.inr ⟨rfl, rfl, (Collection.insert_eq_some.1 hins).2⟩

/-- A command that leaves the current directory. -/
abbrev Grounds {α : Type} (c : Console) (w : World) (p : FsProg α) : Prop :=
  p.Ok (worldSpec fun _ _ _ => True) (fun _ v => w.oids ≤ v.oids → Grounded c v) (fun _ _ => True) w

theorem grounds_rm (h : Grounded c w) (fuel : ℕ) (parameter1 parameter2 : Option CStr) :
    Grounds c w (deleteResource fuel c parameter1 parameter2) := by
  have hsame : w.oids ≤ w.oids → Grounded c w := fun _ => h
  unfold Grounds deleteResource
  cases parameter1 with
  | none => exact hsame
  | some parameter1 =>
    dsimp only
    split
    · cases parameter2 with
      | none => trivial
      | some path =>
        simp only [notNull, Prog.ok_bind, Prog.ok_pure]
        refine resolveDirPath_ok trivial hsame fun d _ _ => ?_
        rw [Prog.ok_bind]
        exact (deleteDir_places fun _ _ => trivial).imp fun _ v hv ho => h.cleared hv.1 ho
    · rw [Prog.ok_bind]
      refine resolveFilePath_ok trivial hsame fun f _ => ?_
      rw [Prog.ok_bind]
      exact deleteFile_places (fun _ _ => trivial) fun v hd _ ho => h.same hd ho

/-- A directory is moved to one that stands. -/
theorem grounds_mv (h : Grounded c w) (resource destination : Option CStr) :
    Grounds c w (moveResource c resource destination) := by
  have hsame : w.oids ≤ w.oids → Grounded c w := fun _ => h
  unfold Grounds moveResource
  split
  case h_2 => exact hsame
  case h_1 resource destination =>
    rw [Prog.ok_bind]
    refine h.resolve trivial hsame fun p _ _ hp => ?_
    rw [Prog.ok_bind]
    refine resolveDirPath_ok trivial ?_ fun d _ _ => ?_
    · rw [Prog.ok_bind]
      refine resolveFilePath_ok trivial hsame fun f _ => ?_
      simp only [filesystemMoveFile, mongoFileUpdateParentId, ok_ask, Prog.ok_ret, serve]
      exact fun _ _ ho => h.same rfl ho
    · simp only [filesystemMoveDir, mongoDirUpdateParentId, ok_ask, Prog.ok_ret, serve]
      exact fun _ _ _ => h.updated (fun _ => rfl) fun _ => Or.inr hp

theorem grounds_rename (h : Grounded c w) (resource newName : Option CStr) :
    Grounds c w (renameResource c resource newName) := by
  have hsame : w.oids ≤ w.oids → Grounded c w := fun _ => h
  unfold Grounds renameResource
  split
  case h_2 => exact hsame
  case h_1 resource newName =>
    rw [Prog.ok_bind]
    refine resolveDirPath_ok trivial ?_ fun d _ _ => ?_
    · rw [Prog.ok_bind]
      refine resolveFilePath_ok trivial hsame fun f _ => ?_
      simp only [filesystemRenameFile, mongoFileUpdateName, ok_ask, Prog.ok_ret, serve]
      exact fun _ _ ho => h.same rfl ho
    · simp only [filesystemRenameDir, mongoDirUpdateName, ok_ask, Prog.ok_ret, serve]
      exact fun _ _ _ => h.updated (fun _ => rfl) fun _ => Or.inl rfl

theorem grounds_mkdir (h : Grounded c w) (dirName : Option CStr) : Grounds c w (makeDir c dirName) := by
  unfold Grounds makeDir
  cases dirName with
  | none => exact fun _ => h
  | some dirName =>
    dsimp only
    rw [Prog.ok_bind]
    refine Prog.Ok.imp addDir_new fun added v hv ho => ?_
    rcases hv with ⟨-, hd⟩ | ⟨-, hoids, hdocs⟩
    · exact h.same hd ho
    · exact h.added rfl rfl hdocs (by omega)

theorem grounds_cp (h : Grounded c w) (source dest : Option CStr) :
    Grounds c w (copyFileFromfs sort c source dest) := by
  have hsame : w.oids ≤ w.oids → Grounded c w := fun _ => h
  have hcopy : ∀ name parentId route, Grounds c w
    (filesystemCopyFileFromFS sort route ⟨.root, parentId, name, 0, []⟩) := by
    intro name parentId route
    exact copyFileFromFS_places (fun _ _ => trivial) (fun _ v hd _ ho => h.same hd ho)
      (fun _ v _ hd _ ho => h.same hd ho)
      fun v _ _ _ _ hd _ ho => h.same hd ho
  unfold Grounds copyFileFromfs
  split
  case h_2 => exact hsame
  case h_1 source dest =>
    rw [Prog.ok_bind]
    refine getFileName_ok trivial fun localFileName => ?_
    simp only [copyDestination, Prog.ok_bind]
    refine resolveDirPath_ok trivial ?_ fun d _ _ => ?_
    · rw [Prog.ok_bind]
      refine getFileName_ok trivial fun destFileName => ?_
      split
      · rw [Prog.ok_bind]
        refine resolveDirPath_ok trivial hsame fun d _ _ => ?_
        simp only [Prog.ok_pure, Prog.ok_bind]
        exact hcopy _ _ _
      · simp only [Prog.ok_pure, Prog.ok_bind]
        exact hcopy _ _ _
    · simp only [Prog.ok_pure, Prog.ok_bind]
      exact hcopy _ _ _

/-- **Every action** keeps what a session keeps. -/
theorem grounded_prog (h : Grounded c w) (fuel : ℕ) (x : Action) :
    (x.prog sort fuel c).Ok (worldSpec fun _ _ _ => True) (fun c' v => Grounded c' v) (fun _ _ => True) w := by
  suffices hlater : (x.prog sort fuel c).Ok (worldSpec fun _ _ _ => True) (fun c' v => w.oids ≤ v.oids → Grounded c' v)
      (fun _ _ => True) w from (issuing hlater).imp fun _ _ hv => hv.1 hv.2
  cases x with
  | importResult nodeId finalTmpName resultFilePath =>
    simp only [Action.prog, Prog.ok_bind, Prog.ok_pure]
    exact copyTmpFileToMDFS_places (fun _ _ => trivial) (fun _ v hd _ ho => h.same hd ho)
      fun _ v _ _ _ hd _ ho => h.same hd ho
  | command cmd =>
    simp only [Action.prog]
    cases cmd <;> simp only [Command.prog, Prog.ok_bind, Prog.ok_pure]
    case rm parameter1 parameter2 => exact grounds_rm h fuel parameter1 parameter2
    case mv resource destination => exact grounds_mv h resource destination
    case rename resource newName => exact grounds_rename h resource newName
    case mkdir dirName => exact grounds_mkdir h dirName
    case cpFromfs source dest => exact grounds_cp h source dest
    case format =>
      simp only [Console.format, Prog.ok_bind]
      refine format_ok fun nodes _ _ => ?_
      exact fun _ => grounded_empty rfl _
    case cd dirName =>
      simp only [changeDir, Prog.ok_bind]
      exact h.resolve trivial (fun _ => h) fun d path _ hd _ => h.entered hd path

/-- **Every session** keeps it. -/
theorem grounded_run {s s' : Session} {es : List (Action × ℕ × List Choice)} (h : Grounded s.console s.world)
    (hr : run (Session.step sort) s es = some s') : Grounded s'.console s'.world := by
  refine run_inv (I := fun s => Grounded s.console s.world) (C := fun _ _ => True) ?_ h along_true hr
  intro s x t hs _ hstep
  have hmeets : Session.Meets sort (fun _ _ _ _ => True) s x := Prog.along_of_mem fun _ _ _ _ => trivial
  exact Session.step_ok (I := fun s => Grounded s.console s.world) (grounded_prog hs x.2.1 x.1) hmeets hstep

/-! ## Resolving a name -/

/-- **A directory is found by its name** from its parent, if the one is a name of a path and the other is there. -/
theorem name_resolves (hd : d ∈ v.dirs.docs) (hname : IsName d.name) (hparent : v.HasDir d.parentId) (start : CStr) :
    ∃ full, Returns (filesystemResolveDirPath d.name d.parentId start) v (some (d, full)) := by
  obtain ⟨hne, hslash, hdot, hdots⟩ := hname
  have hpieces : stringSplit d.name 47 = [d.name] := stringSplit_of_notMem hne hslash
  have hfind : v.dirs.findIdx (d.name, d.parentId) = some d := Collection.findIdx_eq_some.2 ⟨hd, rfl⟩
  have hlook : ∀ id, id = d.parentId → (filesystemGetDirByNameInDir d.name id).Reads handle (fun _ _ => True)
    v (some d) := by
    rintro id rfl
    refine ⟨trivial, some d, fun x => ?_, rfl⟩
    rw [← hfind]
    rfl
  obtain ⟨p, hp, hstart⟩ := reads_startingDir (v := v) rfl hparent
  have hread : ∃ full, (filesystemResolveDirPath d.name d.parentId start).Reads handle (fun _ _ => True)
    v (some (d, full)) := by
    unfold filesystemResolveDirPath
    split
    · rename_i path heq
      exact absurd (heq ▸ List.mem_cons_self) hslash
    · have hnames : (resolveDirNames [d.name] p start).Reads handle (fun _ _ => True) v
          (some (d, (if filesystemIsRootDirId d.parentId then start else start ++ cstr "/") ++ d.name)) := by
        have hskip : ¬(d.name = [] ∨ d.name = cstr ".") := not_or_intro hne hdot
        rw [resolveDirNames, if_neg hskip, if_neg hdots]
        exact Prog.reads_bind (hlook p.id hp) rfl
      rw [← hpieces] at hnames
      exact ⟨_, Prog.reads_bind hstart hnames⟩
  obtain ⟨full, hfull⟩ := hread
  exact ⟨full, hfull.exec⟩

/-- **A new directory** whose name is not one of a path is found by no path from the current directory. -/
theorem new_not_resolved (h : Grounded c w) (hid : d.id = .gen w.oids) (hdocs : v.dirs.docs = w.dirs.docs ++ [d])
    (hname : ¬IsName d.name) (path start full : CStr) :
    ¬Returns (filesystemResolveDirPath path c.currentDirId start) v (some (d, full)) := by
  have hnot : ∀ {id : Oid}, w.Issued id → id ≠ d.id := by
    intro id hissued heq
    exact lt_irrefl _ (hissued _ (heq.trans hid))
  have hd : d ∈ v.dirs.docs := hdocs ▸ List.mem_append_right _ List.mem_cons_self
  have hother : PassedOn v fun e => v.IsDir e ∧ e.id ≠ d.id := by
    refine ⟨?_, ?_, ?_⟩
    · -- the parent of an older directory is older
      rintro e p ⟨hdir, hne⟩ hroot hp hpid
      have hmem : e ∈ v.dirs.docs := hdir.resolve_left fun heq => hroot (congrArg Dir.id heq)
      rw [hdocs] at hmem
      have hold : e ∈ w.dirs.docs := by
        refine (List.mem_append.1 hmem).resolve_right fun hnew => ?_
        exact hne (congrArg Dir.id (List.mem_singleton.1 hnew))
      exact ⟨Or.inr hp, hpid ▸ hnot (h.issued e hold).2⟩
    · -- and the new one is not looked up by its name
      rintro e f ⟨-, -⟩ hf - hfname
      refine ⟨Or.inr hf, fun heq => hname ?_⟩
      rw [← Collection.eq_of_key hf hd heq]
      exact hfname
    · exact ⟨Or.inl rfl, hnot (issued_root w)⟩
  intro hreturns
  have hpost := hreturns.post (resolveDirPath_rule (Q := fun x _ => ∀ y ∈ x, v.IsDir y.1 ∧ y.1.id ≠ d.id) hother trivial
    (fun e he heq => ⟨Or.inr he, heq ▸ hnot h.current⟩) fun x hx => hx)
  exact (hpost _ rfl).2 rfl

/-! ## The two commands -/

/-- A renaming takes no directory away. -/
theorem renameResource_has (resource newName : CStr) :
    (renameResource c (some resource) (some newName)).Ok (worldSpec C)
    (fun _ v => ∀ a, w.HasDir a → v.HasDir a) (fun _ _ => True) w := by
  have hsame : ∀ a, w.HasDir a → w.HasDir a := fun _ ha => ha
  unfold renameResource
  dsimp only
  rw [Prog.ok_bind]
  refine resolveDirPath_ok trivial ?_ fun d _ _ => ?_
  · rw [Prog.ok_bind]
    refine resolveFilePath_ok trivial hsame fun f _ => ?_
    simp only [filesystemRenameFile, mongoFileUpdateName, ok_ask, Prog.ok_ret, serve]
    exact fun _ _ => hsame
  · simp only [filesystemRenameDir, mongoDirUpdateName, ok_ask, Prog.ok_ret, serve]
    exact fun _ _ a ha => (hasDir_update (g := fun d => { d with name := newName }) fun _ => rfl).2 ha

/-- **`mkdir`**: the directory that is created is found by the text it was created with just when that is a name of
a path. -/
theorem mkdir_found_iff (h : Grounded c w) (hcur : w.HasDir c.currentDirId) {cs : List Choice}
    (hexec : (makeDir c (some name)).exec handle w cs = some (.ok (), v)) (hdocs : v.dirs.docs = w.dirs.docs ++ [d]) :
    (∃ full, Returns (filesystemResolveDirPath name c.currentDirId start) v (some (d, full))) ↔ IsName name := by
  have hrun : (makeDir c (some name)).Ok (worldSpec fun _ _ _ => True)
      (fun _ u => u.dirs = w.dirs ∨ u.dirs.docs = w.dirs.docs ++ [⟨.gen w.oids, c.currentDirId, name⟩])
        (fun _ _ => True) w := by
    unfold makeDir
    dsimp only
    rw [Prog.ok_bind]
    refine Prog.Ok.imp addDir_new fun added u hu => ?_
    exact hu.imp (fun hfail => hfail.2) fun hmade => hmade.2.2
  have hnew : d = ⟨.gen w.oids, c.currentDirId, name⟩ := by
    rcases hrun.exec_along (Prog.along_of_mem fun _ _ _ _ => trivial) hexec with hsame | hmade
    · have hlen := congrArg (fun dirs : Dirs => dirs.docs.length) hsame
      rw [hdocs] at hlen
      simp at hlen
    · exact List.singleton_inj.1 (List.append_cancel_left (hdocs.symm.trans hmade))
  subst hnew
  constructor
  · rintro ⟨full, hreturns⟩
    by_contra hname
    exact new_not_resolved h rfl hdocs hname name start full hreturns
  · intro hname
    have hhas : v.HasDir c.currentDirId := by
      refine hcur.imp_right ?_
      rintro ⟨e, he, hid⟩
      exact ⟨e, hdocs ▸ List.mem_append_left _ he, hid⟩
    exact name_resolves (d := ⟨.gen w.oids, c.currentDirId, name⟩)
      (hdocs ▸ List.mem_append_right _ List.mem_cons_self) hname hhas start

/-- **`rename`**: the directory is found by its new name from its parent if that is a name of a path. -/
theorem rename_found (h : Grounded c w) {resource newName full : CStr} {cs : List Choice}
    (hd : Returns (filesystemResolveDirPath resource c.currentDirId path) w (some (d, full))) (hroot : d.id ≠ .root)
    (hexec : (renameResource c (some resource) (some newName)).exec handle w cs = some (.ok (), v))
    (hrenamed : { d with name := newName } ∈ v.dirs.docs) (hname : IsName newName) (start : CStr) :
    ∃ full, Returns (filesystemResolveDirPath newName d.parentId start)
      v (some ({ d with name := newName }, full)) := by
  have hstands : w.IsDir d ∧ w.Standing d.id := by
    have hpost := hd.post (h.resolve (Q := fun x _ => ∀ y ∈ x, w.IsDir y.1 ∧ w.Standing y.1.id)
      trivial (fun y hy => absurd hy (Option.not_mem_none y)) ?_)
    · exact hpost _ rfl
    · intro e path hdir he y hy
      obtain rfl := Option.some.inj hy
      exact ⟨hdir, he⟩
  have hmem : d ∈ w.dirs.docs := hstands.1.resolve_left fun heq => hroot (congrArg Dir.id heq)
  have hhas := (renameResource_has (C := fun _ _ _ => True) resource newName).exec_along
    (Prog.along_of_mem fun _ _ _ _ => trivial) hexec
  exact name_resolves (d := { d with name := newName }) hrenamed hname (hhas _ (hstands.2.up hmem).has) start

/-- **Whether a created directory can be entered.** After every session from a store without directories: if the
current directory is there, the directory that `mkdir` creates is found by the text that was typed just when that is
a name of a path; and a directory that `rename` gives a name of a path is found by it from its parent. -/
theorem created_dir_found (sort : NodeSort) (w : World) (es : List (Action × ℕ × List Choice)) (s : Session)
    (hdirs : w.dirs.docs = []) (hrun : run (Session.step sort) ⟨.start, w⟩ es = some s) :
    (∀ name cs v d, s.world.HasDir s.console.currentDirId → (makeDir s.console (some name)).exec handle s.world
      cs = some (.ok (), v) →
      v.dirs.docs = s.world.dirs.docs ++ [d] →
      ((∃ full, Returns (filesystemResolveDirPath name s.console.currentDirId s.console.currentDirPrompt)
        v (some (d, full))) ↔
        IsName name)) ∧
    ∀ resource newName cs v d full start,
      Returns (filesystemResolveDirPath resource s.console.currentDirId s.console.currentDirPrompt)
        s.world (some (d, full)) →
      d.id ≠ .root → (renameResource s.console (some resource) (some newName)).exec handle s.world cs =
        some (.ok (), v) →
      { d with name := newName } ∈ v.dirs.docs → IsName newName →
      ∃ full, Returns (filesystemResolveDirPath newName d.parentId start)
        v (some ({ d with name := newName }, full)) := by
  have hstart : Grounded Console.start w := grounded_empty hdirs _
  have h := grounded_run (s := ⟨.start, w⟩) hstart hrun
  constructor
  · intro name cs v d hcur hexec hdocs
    exact mkdir_found_iff h hcur hexec hdocs
  · intro resource newName cs v d full start hd hroot hexec hrenamed hname
    exact rename_found h hd hroot hexec hrenamed hname start

/-- `mkdir a`. -/
def mkdirA : List (Action × ℕ × List Choice) := [(.command (.mkdir (par "a")), 0, List.replicate 4 .done)]

theorem created_dir_found_b : ∃ s v full, run (Session.step insertionSort) ⟨.start, .empty fun _ => []⟩ mkdirA =
    some s ∧
    (makeDir s.console (some (cstr "b"))).exec handle s.world (List.replicate 4 .done) = some (.ok (), v) ∧
    Returns (filesystemResolveDirPath (cstr "b") s.console.currentDirId s.console.currentDirPrompt) v
      (some (⟨.gen 1, .root, cstr "b"⟩, full)) := by
  have hall : ∃ s ∈ run (Session.step insertionSort) ⟨.start, .empty fun _ => []⟩ mkdirA,
    s.console.currentDirId = .root ∧
      ∃ x ∈ (makeDir s.console (some (cstr "b"))).exec handle s.world (List.replicate 4 .done), x.1.toOption = some () ∧
        x.2.dirs.docs = s.world.dirs.docs ++ [⟨.gen 1, .root, cstr "b"⟩] := by decide +kernel
  obtain ⟨s, hs, hcur, ⟨r, v⟩, hx, hr, hdocs⟩ := hall
  have hexec : (makeDir s.console (some (cstr "b"))).exec handle s.world (List.replicate 4 .done) =
    some (.ok (), v) := by
    cases r with
    | ok r => exact hx
    | error e => cases hr
  have hall := created_dir_found insertionSort (.empty fun _ => []) mkdirA s rfl hs
  obtain ⟨full, hfull⟩ := (hall.1 _ _ _ _ (Or.inl hcur) hexec hdocs).2 (by decide)
  exact ⟨s, v, full, hs, hexec, hfull⟩

/-- **Directories that are lost**: `mkdir a/b` in the root, and `rename a ..`. -/
theorem created_dir_lost :
    (∃ v, (makeDir .start (some (cstr "a/b"))).exec handle (.empty fun _ => []) (List.replicate 4 .done) =
      some (.ok (), v) ∧
      v.dirs.docs = [⟨.gen 0, .root, cstr "a/b"⟩] ∧
      ∀ d full, ¬Returns (filesystemResolveDirPath (cstr "a/b") .root (cstr "/")) v (some (d, full))) ∧
    ∃ s v, run (Session.step insertionSort) ⟨.start, .empty fun _ => []⟩ mkdirA = some s ∧
      (renameResource s.console (par "a") (par "..")).exec handle s.world (List.replicate 2 .done) = some (.ok (), v) ∧
      v.dirs.docs = [⟨.gen 0, .root, cstr ".."⟩] ∧
      ∀ full, ¬Returns (filesystemResolveDirPath (cstr "..") .root (cstr "/"))
        v (some (⟨.gen 0, .root, cstr ".."⟩, full)) := by
  constructor
  · have hall : ∃ x ∈ (makeDir .start (some (cstr "a/b"))).exec handle (.empty fun _ => []) (List.replicate 4 .done),
        x.1.toOption = some () ∧ x.2.dirs.docs = [⟨.gen 0, .root, cstr "a/b"⟩] ∧
        ∃ y ∈ (filesystemResolveDirPath (cstr "a/b") .root (cstr "/")).exec handle x.2 [.done], y.1.toOption =
          some none := by
      decide +kernel
    obtain ⟨⟨r, v⟩, hx, hr, hdocs, ⟨q, u⟩, hy, hq⟩ := hall
    cases r with
    | error e => cases hr
    | ok r =>
      refine ⟨v, hx, hdocs, fun d full hreturns => ?_⟩
      cases q with
      | error e => cases hq
      | ok q =>
        obtain rfl : q = none := Option.some.inj hq
        cases (hreturns.of_exec hy).1
  · have hall : ∃ s ∈ run (Session.step insertionSort) ⟨.start, .empty fun _ => []⟩ mkdirA,
        ∃ x ∈ (renameResource s.console (par "a") (par "..")).exec handle s.world (List.replicate 2 .done),
        x.1.toOption = some () ∧ x.2.dirs.docs = [⟨.gen 0, .root, cstr ".."⟩] := by decide +kernel
    obtain ⟨s, hs, ⟨r, v⟩, hx, hr, hdocs⟩ := hall
    cases r with
    | error e => cases hr
    | ok r =>
      refine ⟨s, v, hs, hx, hdocs, fun full hreturns => ?_⟩
      -- the path leads to the root, whatever is stored
      have hroot : (filesystemResolveDirPath (cstr "..") .root (cstr "/")).exec handle v [] =
        some (.ok (some (rootDir, cstr "/")), v) := rfl
      cases (hreturns.of_exec hroot).1

end Mdfs.FileSystem
