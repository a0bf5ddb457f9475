import Mdfs.Lib.Trace
import Mdfs.FileSystem.Tree

/-!
# The paths that are resolved

`filesystem_resolveDirPath` goes from directory to directory and edits the text of the
full path on the way. `Leads` says which names lead from the root down to a directory,
and `follow` where one piece of a path leads from it.

* `reads_resolveDirNames`: the directory and the text keep together, piece by piece, and
  every lookup is made from a directory that is there.
* `path_resolves`: what a path resolves to, and that its parts resolve in turn.
-/

namespace Mdfs.FileSystem

open Lib

variable {w : World} {names : List CStr} {id : Oid} {d : Dir}

/-- The names from the root down to a directory. -/
inductive Leads (w : World) : Oid → List CStr → Prop
  | root : Leads w .root []
  | down {d : Dir} {names : List CStr} (hd : d ∈ w.dirs.docs) (h : Leads w d.parentId names) :
    Leads w d.id (names ++ [d.name])

/-- The path that these names make. -/
def canonicalPath (names : List CStr) : CStr := if names = [] then cstr "/" else names.flatMap fun name => 47 :: name

/-- No directory is stored as the root. -/
def NoRoot (w : World) : Prop := ∀ d ∈ w.dirs.docs, d.id ≠ .root

theorem Leads.of_root (hw : NoRoot w) (h : Leads w id names) (hid : id = .root) : names = [] := by
  cases h with
  | root => rfl
  | down hd _ => exact absurd hid (hw _ hd)

theorem Leads.eq_root (h : Leads w id names) (hnames : names = []) : id = .root := by
  cases h with
  | root => rfl
  | down hd h => simp at hnames

theorem Leads.hasDir (h : Leads w id names) : w.HasDir id := by
  cases h with
  | root => exact Or.inl rfl
  | down hd h => exact Or.inr ⟨_, hd, rfl⟩

/-- A directory that is led to, with the directory above it. -/
theorem Leads.up (h : Leads w id names) (hid : id ≠ .root) :
    ∃ d ∈ w.dirs.docs, d.id = id ∧ ∃ above, names = above ++ [d.name] ∧ Leads w d.parentId above := by
  cases h with
  | root => exact absurd rfl hid
  | down hd h => exact ⟨_, hd, rfl, _, rfl, h⟩

/-- **The names of a directory** are determined. -/
theorem Leads.unique (hw : NoRoot w) (h : Leads w id names) : ∀ {names'}, Leads w id names' → names' = names := by
  induction h with
  | root => intro names' h'; exact h'.of_root hw rfl
  | @down d above hd _ ih =>
    intro names' h'
    obtain ⟨e, he, hid, above', rfl, habove'⟩ := h'.up (hw d hd)
    obtain rfl : e = d := Collection.eq_of_key he hd hid
    rw [ih habove']

/-- In a tree every directory has its names. -/
theorem IsTree.leads (h : IsTree w) (hid : w.HasDir id) : ∃ names, Leads w id names := by
  have hrooted := h.rootedDir hid
  clear hid
  induction hrooted with
  | top => exact ⟨[], .root⟩
  | up hparent _ ih =>
    obtain ⟨d, hd, rfl, rfl⟩ := parentOf_eq_some.1 hparent
    obtain ⟨names, hnames⟩ := ih
    exact ⟨names ++ [d.name], .down hd hnames⟩

theorem canonicalPath_of_ne (h : names ≠ []) : canonicalPath names = names.flatMap fun name => 47 :: name := if_neg h

theorem canonicalPath_append (above : List CStr) (name : CStr) :
    canonicalPath (above ++ [name]) = (above.flatMap fun name => 47 :: name) ++ 47 :: name := by
  rw [canonicalPath_of_ne (by simp), List.flatMap_append, List.flatMap_singleton]

/-- `..` takes the last name off the path. -/
theorem cutAt_last (above : List CStr) (name : CStr) :
    cutAt (canonicalPath (above ++ [name])) ((canonicalPath (above ++ [name])).length - name.length - 1) =
      above.flatMap fun name => 47 :: name := by
  rw [canonicalPath_append]
  set base := above.flatMap fun name => 47 :: name
  have hlen : (((base ++ 47 :: name).length : ℤ) - name.length - 1) = base.length := by
    simp only [List.length_append, List.length_cons]
    omega
  rw [hlen, cutAt, if_pos (by omega), Int.toNat_natCast, List.take_left]

/-- What a resolution is at: a directory, and the path of its names. -/
def At (w : World) (d : Dir) (path : CStr) : Prop :=
  w.IsDir d ∧ ∃ names, Leads w d.id names ∧ path = canonicalPath names

theorem at_root (w : World) : At w rootDir (cstr "/") := ⟨Or.inl rfl, [], .root, rfl⟩

/-- Two resolutions at one directory are at one path. -/
theorem At.unique (hw : NoRoot w) {e : Dir} {path path' : CStr} (h : At w d path) (h' : At w e path')
    (hid : e.id = d.id) :
    e = d ∧ path' = path := by
  obtain ⟨hd, names, hleads, rfl⟩ := h
  obtain ⟨he, names', hleads', rfl⟩ := h'
  have hnames : names' = names := hleads.unique hw (hid ▸ hleads')
  refine ⟨?_, congrArg canonicalPath hnames⟩
  rcases hd with rfl | hd
  · rcases he with rfl | he
    · rfl
    · exact absurd hid (hw e he)
  · rcases he with rfl | he
    · exact absurd hid.symm (hw d hd)
    · exact Collection.eq_of_key he hd hid

/-! ## The walk of the names -/

/-- The directory above; above the root, the root. -/
def World.above (w : World) (id : Oid) : Oid := (w.dirs.findKey id).elim .root Dir.parentId

theorem above_root (hw : NoRoot w) : w.above .root = .root := by
  have hnone : w.dirs.findKey .root = none := Collection.findKey_eq_none.2 hw
  rw [World.above, hnone]
  rfl

theorem above_of_mem (hd : d ∈ w.dirs.docs) : w.above d.id = d.parentId := by
  rw [World.above, Collection.findKey_eq_some.2 ⟨hd, rfl⟩]
  rfl

/-- Where one piece of a path leads from a directory. -/
def World.follow (w : World) (id : Oid) (name : CStr) : Option Oid :=
  if name = cstr "." then some id
  else if name = cstr ".." then some (w.above id)
  else (w.dirs.findIdx (name, id)).map Dir.id

/-- Where the walk along a path begins: at the root if the path begins with a slash. -/
def startOf (path : CStr) (startingDirId : Oid) : Oid := if path.head? = some 47 then .root else startingDirId

/-- **The walk along a path**, from piece to piece. -/
def World.walk (w : World) (path : CStr) (startingDirId : Oid) : Option Oid :=
  run w.follow (startOf path startingDirId) (stringSplit path 47)

/-- The walk meets a name that no directory has where it is. -/
def World.Misses (w : World) (path : CStr) (startingDirId : Oid) : Prop :=
  ∃ before name rest parentId, stringSplit path 47 = before ++ name :: rest ∧
    run w.follow (startOf path startingDirId) before = some parentId ∧
    name ≠ cstr "." ∧ name ≠ cstr ".." ∧ ∀ d ∈ w.dirs.docs, d.parentId = parentId → d.name ≠ name

theorem follow_eq_none {name : CStr} : w.follow id name = none ↔
    name ≠ cstr "." ∧ name ≠ cstr ".." ∧ ∀ d ∈ w.dirs.docs, d.parentId = id → d.name ≠ name := by
  unfold World.follow
  split
  · rename_i hdot
    simp [hdot]
  · rename_i hdot
    split
    · rename_i hdots
      simp [hdots]
    · rename_i hdots
      rw [Option.map_eq_none_iff, Collection.findIdx_eq_none]
      constructor
      · intro h
        refine ⟨hdot, hdots, fun d hd hp hn => ?_⟩
        exact h d hd (Prod.ext hn hp)
      · rintro ⟨-, -, h⟩ d hd heq
        obtain ⟨hn, hp⟩ := Prod.mk.inj heq
        exact h d hd hp hn

theorem walk_eq_none {path : CStr} : w.walk path id = none ↔ w.Misses path id := by
  simp only [World.walk, World.Misses, run_eq_none, follow_eq_none]

/-- **A walk along two paths**, the second a relative one. -/
theorem walk_append {p q : CStr} (hp : p ≠ []) (hq : q.head? ≠ some 47) :
    w.walk (p ++ 47 :: q) id = (w.walk p id).bind (w.walk q) := by
  have hstart : startOf (p ++ 47 :: q) id = startOf p id := by
    obtain ⟨b, p, rfl⟩ := List.exists_cons_of_ne_nil hp
    rfl
  refine Option.ext fun a => ?_
  unfold World.walk
  rw [hstart, stringSplit_append, run_append, Option.bind_eq_some_iff]
  simp only [startOf, if_neg hq]

/-! ## The lookups -/

/-- A lookup of a directory that is there, or in one that is there. -/
def LooksIn (w : World) : Req → Prop
  | .dirById id => w.HasDir id
  | .dirByName _ parentId => w.HasDir parentId
  | _ => False

theorem reads_dirById (hd : d ∈ w.dirs.docs) : (filesystemGetDirById d.id).Reads handle LooksIn w (some d) := by
  have hfind : w.dirs.findKey d.id = some d := Collection.findKey_eq_some.2 ⟨hd, rfl⟩
  refine ⟨Or.inr ⟨d, hd, rfl⟩, some d, fun _ => ?_, rfl⟩
  exact congrArg (fun answer => some (answer, w)) hfind

theorem reads_dirByName (name : CStr) (hid : w.HasDir id) :
    (filesystemGetDirByNameInDir name id).Reads handle LooksIn w (w.dirs.findIdx (name, id)) :=
  ⟨hid, _, fun _ => rfl, rfl⟩

/-- What a resolution comes to when the walk comes to `reached`: that directory with its path, or none. -/
def Resolved (w : World) (reached : Option Oid) (result : Option (Dir × CStr)) : Prop :=
  result.map (fun x => x.1.id) = reached ∧ ∀ dir path, result = some (dir, path) → At w dir path

theorem resolved_none : Resolved w none none := ⟨rfl, fun _ _ h => nomatch h⟩

theorem resolved_some {path : CStr} (h : At w d path) : Resolved w (some d.id) (some (d, path)) := by
  refine ⟨rfl, fun dir path' heq => ?_⟩
  cases heq
  exact h

/-- **What the walk comes to** determines the resolution. -/
theorem Resolved.unique (hw : NoRoot w) {reached : Option Oid} {result result' : Option (Dir × CStr)}
    (h : Resolved w reached result) (h' : Resolved w reached result') : result' = result := by
  obtain ⟨rfl, hat⟩ := h
  obtain ⟨hid, hat'⟩ := h'
  cases result with
  | none => simpa using hid
  | some x =>
    cases result' with
    | none => simp at hid
    | some x' =>
      have hsame : x'.1.id = x.1.id := by simpa using hid
      obtain ⟨hdir, hpath⟩ := (hat _ _ rfl).unique hw (hat' _ _ rfl) hsame
      exact congrArg some (Prod.ext hdir hpath)

/-! ## Resolving -/

/-- **`..`** takes directory and text to the directory above. -/
theorem reads_resolveParent {path : CStr} (hw : NoRoot w) (h : At w d path) :
    ∃ e path', At w e path' ∧ e.id = w.above d.id ∧ (resolveParent d path).Reads handle LooksIn w (e, path') := by
  obtain ⟨hdir, names, hleads, rfl⟩ := h
  unfold resolveParent
  by_cases hroot : d.id = .root
  · -- at the root nothing moves
    have habove : w.above d.id = .root := hroot ▸ above_root hw
    rw [if_pos (by simpa [filesystemIsRootDir, filesystemIsRootDirId] using hroot)]
    exact ⟨d, _, ⟨hdir, names, hleads, rfl⟩, hroot.trans habove.symm, rfl⟩
  · rw [if_neg (by simpa [filesystemIsRootDir, filesystemIsRootDirId] using hroot)]
    obtain ⟨e, he, hid, above, rfl, hup⟩ := hleads.up hroot
    have hd : d ∈ w.dirs.docs := hdir.resolve_left fun heq => hroot (congrArg Dir.id heq)
    obtain rfl : e = d := Collection.eq_of_key he hd hid
    rw [above_of_mem he]
    dsimp only
    rw [cutAt_last]
    -- a text that is cut back to the root is empty, and gets its slash again
    by_cases hparent : e.parentId = .root
    · rw [if_pos (by simpa [filesystemIsRootDirId] using hparent), hup.of_root hw hparent]
      exact ⟨rootDir, _, at_root w, hparent.symm, rfl⟩
    · rw [if_neg (by simpa [filesystemIsRootDirId] using hparent)]
      obtain ⟨p, hp, hpid, above', rfl, hup'⟩ := hup.up hparent
      -- a stored parent is not the root, so no slash is added
      have hproot : filesystemIsRootDir p = false := by
        simpa [filesystemIsRootDir, filesystemIsRootDirId] using hw p hp
      rw [← hpid]
      refine ⟨p, _, ⟨Or.inr hp, above' ++ [p.name], .down hp hup', rfl⟩, rfl, ?_⟩
      refine Prog.reads_bind (reads_dirById hp) ?_
      rw [canonicalPath_of_ne (by simp)]
      simp only [hproot]
      rfl

/-- **The name of a directory** takes the text to its path. -/
theorem At.down {e : Dir} {path : CStr} (hw : NoRoot w) (h : At w d path) (he : e ∈ w.dirs.docs)
    (hparent : e.parentId = d.id) :
    At w e ((if filesystemIsRootDirId e.parentId then path else path ++ cstr "/") ++ e.name) := by
  obtain ⟨-, names, hleads, rfl⟩ := h
  have hdown : Leads w e.id (names ++ [e.name]) := .down he (hparent ▸ hleads)
  refine ⟨Or.inr he, names ++ [e.name], hdown, ?_⟩
  rw [canonicalPath_append]
  -- below the root the slash is there already
  by_cases hroot : e.parentId = .root
  · rw [if_pos (by simpa [filesystemIsRootDirId] using hroot), hleads.of_root hw (hparent ▸ hroot)]
    rfl
  · have hne : names ≠ [] := by
      rintro rfl
      exact hroot (hparent.trans (hleads.eq_root rfl))
    rw [if_neg (by simpa [filesystemIsRootDirId] using hroot), canonicalPath_of_ne hne, List.append_assoc]
    rfl

/-- **The loop over the names** keeps to the walk. -/
theorem reads_resolveDirNames (hw : NoRoot w) : ∀ {names : List CStr} {d : Dir} {path : CStr},
    (∀ name ∈ names, name ≠ []) → At w d path →
    ∃ result, (resolveDirNames names d path).Reads handle LooksIn w result ∧
      Resolved w (run w.follow d.id names) result := by
  intro names
  induction names with
  | nil => intro d path _ h; exact ⟨some (d, path), rfl, resolved_some h⟩
  | cons name names ih =>
    intro d path hne h
    have hrest : ∀ name ∈ names, name ≠ [] := fun n hn => hne n (List.mem_cons_of_mem name hn)
    have hname : name ≠ [] := hne name List.mem_cons_self
    rw [resolveDirNames, run, World.follow]
    by_cases hdot : name = cstr "."
    · rw [if_pos (Or.inr hdot), if_pos hdot]
      exact ih hrest h
    · rw [if_neg (by simp [hname, hdot]), if_neg hdot]
      by_cases hdots : name = cstr ".."
      · rw [if_pos hdots, if_pos hdots]
        obtain ⟨e, path', hat, hid, hreads⟩ := reads_resolveParent hw h
        obtain ⟨result, hresult, hresolved⟩ := ih hrest hat
        refine ⟨result, Prog.reads_bind hreads hresult, ?_⟩
        rw [← hid]
        exact hresolved
      · rw [if_neg hdots, if_neg hdots]
        have hlook := reads_dirByName name h.1.has
        cases hfind : w.dirs.findIdx (name, d.id) with
        | none =>
          -- the rest of the names is not looked at
          rw [hfind] at hlook
          exact ⟨none, Prog.reads_bind hlook rfl, resolved_none⟩
        | some e =>
          rw [hfind] at hlook
          obtain ⟨he, hplace⟩ := Collection.findIdx_eq_some.1 hfind
          obtain ⟨result, hresult, hresolved⟩ := ih hrest (h.down hw he (Prod.mk.inj hplace).2)
          exact ⟨result, Prog.reads_bind hlook hresult, hresolved⟩

/-- **What a path resolves to** from a directory and its path. -/
theorem reads_resolveDirPath (hw : NoRoot w) (hstart : Leads w id names) (path : CStr) :
    ∃ result, (filesystemResolveDirPath path id (canonicalPath names)).Reads handle LooksIn w result ∧
      Resolved w (w.walk path id) result := by
  unfold filesystemResolveDirPath World.walk
  split
  · rename_i path
    rw [stringSplit_cons]
    exact reads_resolveDirNames hw (fun _ h => ne_nil_of_mem_pieces h) (at_root w)
  · rename_i hslash
    have hid : startOf path id = id := by
      refine if_neg fun hhead => ?_
      obtain ⟨rest, hrest⟩ := List.head?_eq_some_iff.1 hhead
      exact hslash rest hrest
    rw [hid, startingDir]
    by_cases hroot : id = .root
    · rw [if_pos (by simpa [filesystemIsRootDirId] using hroot), hstart.of_root hw hroot, hroot]
      exact reads_resolveDirNames hw (fun _ h => ne_nil_of_mem_pieces h) (at_root w)
    · rw [if_neg (by simpa [filesystemIsRootDirId] using hroot)]
      obtain ⟨d, hd, rfl, -⟩ := hstart.up hroot
      obtain ⟨result, hresult, hresolved⟩ := reads_resolveDirNames hw (fun _ h => ne_nil_of_mem_pieces h)
        ⟨Or.inr hd, names, hstart, rfl⟩
      exact ⟨result, Prog.reads_bind (reads_dirById hd) hresult, hresolved⟩

/-- Resolving `p`, and then `q` from the directory found, with its path. -/
def resolveInTurn (p q : CStr) (startingDirId : Oid) (startingPath : CStr) : FsProg (Option (Dir × CStr)) := do
  match ← filesystemResolveDirPath p startingDirId startingPath with
  | some (dir, fullPath) => filesystemResolveDirPath q dir.id fullPath
  | none => pure none

theorem reads_resolveInTurn (hw : NoRoot w) (hstart : Leads w id names) (p q : CStr) :
    ∃ result, (resolveInTurn p q id (canonicalPath names)).Reads handle LooksIn w result ∧
      Resolved w ((w.walk p id).bind (w.walk q)) result := by
  obtain ⟨first, hfirst, hreached, hat⟩ := reads_resolveDirPath hw hstart p
  rw [← hreached]
  cases first with
  | none => exact ⟨none, Prog.reads_bind hfirst rfl, resolved_none⟩
  | some x =>
    obtain ⟨-, names', hleads, hpath⟩ := hat x.1 x.2 rfl
    obtain ⟨result, hresult, hresolved⟩ := reads_resolveDirPath hw hleads q
    rw [← hpath] at hresult
    exact ⟨result, Prog.reads_bind hfirst hresult, hresolved⟩

/-- **Paths resolve.** From a directory with its path, a path resolves to none exactly if the
walk meets a name with no directory, and otherwise to the directory that the walk comes to,
with its path; every lookup on the way is for a directory that is there or in one that is
there. A path followed by a relative one resolves as the two in turn. -/
theorem path_resolves (hw : NoRoot w) (hstart : Leads w id names) (path : CStr) :
    ∃ result n,
      (∀ cs, n ≤ cs.length →
        (filesystemResolveDirPath path id (canonicalPath names)).exec handle w cs = some (.ok result, w)) ∧
      (∀ cs, (filesystemResolveDirPath path id (canonicalPath names)).Along handle (fun v r _ => LooksIn v r) w cs) ∧
      (result = none ↔ w.Misses path id) ∧
      (∀ dir fullPath, result = some (dir, fullPath) → w.IsDir dir ∧ w.walk path id = some dir.id ∧
        ∃ names', Leads w dir.id names' ∧ fullPath = canonicalPath names') ∧
      ∀ p q, path = p ++ 47 :: q → p ≠ [] → q.head? ≠ some 47 → ∃ m, ∀ cs, m ≤ cs.length →
        (resolveInTurn p q id (canonicalPath names)).exec handle w cs = some (.ok result, w) := by
  obtain ⟨result, hreads, hresolved⟩ := reads_resolveDirPath hw hstart path
  obtain ⟨n, hn⟩ := hreads.exec
  refine ⟨result, n, hn, fun cs => hreads.along cs, ?_, ?_, ?_⟩
  · rw [← walk_eq_none, ← hresolved.1, Option.map_eq_none_iff]
  · intro dir fullPath heq
    obtain ⟨hdir, hpath⟩ := hresolved.2 dir fullPath heq
    refine ⟨hdir, ?_, hpath⟩
    rw [← hresolved.1, heq]
    rfl
  · rintro p q rfl hp hq
    obtain ⟨result', hreads', hresolved'⟩ := reads_resolveInTurn hw hstart p q
    rw [← walk_append hp hq] at hresolved'
    rw [hresolved.unique hw hresolved'] at hreads'
    exact hreads'.exec

/-- `/a`, `/a/b` and `/c`. -/
def threeDirs : World :=
  { World.empty fun _ => [] with
    dirs := ⟨[⟨.gen 0, .root, cstr "a"⟩, ⟨.gen 1, .gen 0, cstr "b"⟩, ⟨.gen 2, .root, cstr "c"⟩], by decide, by decide⟩ }

/-- From `/a/b`, by way of the root, to `/c`, and to a name that is not there. -/
theorem path_resolves_threeDirs : NoRoot threeDirs ∧ Leads threeDirs (.gen 1) [cstr "a", cstr "b"] ∧
    threeDirs.walk (cstr "..//./../../c") (.gen 1) = some (.gen 2) ∧
    (∃ dir n, dir.id = .gen 2 ∧ ∀ cs, n ≤ cs.length →
      (filesystemResolveDirPath (cstr "..//./../../c") (.gen 1) (cstr "/a/b")).exec handle threeDirs cs =
        some (.ok (some (dir, cstr "/c")), threeDirs)) ∧
    ∃ n, ∀ cs, n ≤ cs.length →
      (filesystemResolveDirPath (cstr "../c/..") (.gen 1) (cstr "/a/b")).exec handle threeDirs cs =
        some (.ok none, threeDirs) := by
  have hw : NoRoot threeDirs := by unfold NoRoot; decide
  have ha : Leads threeDirs (.gen 0) [cstr "a"] := .down (d := ⟨.gen 0, .root, cstr "a"⟩) (by decide) .root
  have hb : Leads threeDirs (.gen 1) [cstr "a", cstr "b"] := .down (d := ⟨.gen 1, .gen 0, cstr "b"⟩) (by decide) ha
  have hc : Leads threeDirs (.gen 2) [cstr "c"] := .down (d := ⟨.gen 2, .root, cstr "c"⟩) (by decide) .root
  have hwalk : threeDirs.walk (cstr "..//./../../c") (.gen 1) = some (.gen 2) := by decide
  refine ⟨hw, hb, hwalk, ?_, ?_⟩
  · obtain ⟨result, n, hexec, -, hnone, hsome, -⟩ := path_resolves hw hb (cstr "..//./../../c")
    cases result with
    | none =>
      rw [walk_eq_none.2 (hnone.1 rfl)] at hwalk
      cases hwalk
    | some x =>
      obtain ⟨-, hreached, names, hleads, hpath⟩ := hsome x.1 x.2 rfl
      have hid : x.1.id = .gen 2 := Option.some.inj (hreached.symm.trans hwalk)
      have hnames : names = [cstr "c"] := hc.unique hw (hid ▸ hleads)
      have hfull : x.2 = cstr "/c" := hpath.trans (congrArg canonicalPath hnames)
      exact ⟨x.1, n, hid, fun cs hcs => hfull ▸ hexec cs hcs⟩
  · obtain ⟨result, n, hexec, -, hnone, -⟩ := path_resolves hw hb (cstr "../c/..")
    have hmisses : threeDirs.Misses (cstr "../c/..") (.gen 1) := walk_eq_none.1 (by decide)
    rw [hnone.2 hmisses] at hexec
    exact ⟨n, hexec⟩

end Mdfs.FileSystem
