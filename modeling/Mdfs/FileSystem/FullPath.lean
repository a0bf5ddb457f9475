import Mdfs.FileSystem.ConsoleLine
import Mdfs.FileSystem.CreatedDir
import Mdfs.FileSystem.Prompt

/-!
# The text of the full path

`filesystem_resolveDirPath` builds the full path in `newFullPath`, an array of 1024 bytes, and appends to it without a
test; `cd` copies the text to `currentDirPrompt`, which has 1024 bytes too. `heldDirPath` is the function with all the
texts that the array holds on the way (`fst_heldDirPath`).

* `reads_heldDirPath`: the texts are no longer than the full paths of the directories that the resolution comes to.
* `PathsFit.short`: the full path of every directory that can be reached is held when it is resolved.
* `onDirs_step`: what a line of `mkdir` or `cd` keeps.
* `full_paths_fit`: when the texts of a whole session fit, and `prompt_overflows`, a session in which they do not.
-/

namespace Mdfs.FileSystem

open Lib

variable {w v : World} {sort : NodeSort} {fuel : ℕ} {c : Console} {d e : Dir} {id : Oid} {names : List CStr}

/-! ## The texts that are held -/

/-- The text after `..` has cut it, before a slash is put at the root. -/
def cutText (currentDir : Dir) (newFullPath : CStr) : CStr :=
  if filesystemIsRootDir currentDir then newFullPath
  else cutAt newFullPath (newFullPath.length - currentDir.name.length - 1)

/-- The loop over the names, with the texts that `newFullPath` holds. -/
def heldDirNames : List CStr → Dir → CStr → FsProg (Option (Dir × CStr) × List CStr)
  | [], currentDir, newFullPath => pure (some (currentDir, newFullPath), [newFullPath])
  | dirName :: dirNames, currentDir, newFullPath =>
    if dirName = [] ∨ dirName = cstr "." then heldDirNames dirNames currentDir newFullPath
    else if dirName = cstr ".." then do
      let (newDir, text) ← resolveParent currentDir newFullPath
      let (found, texts) ← heldDirNames dirNames newDir text
      pure (found, newFullPath :: cutText currentDir newFullPath :: texts)
    else do
      match ← filesystemGetDirByNameInDir dirName currentDir.id with
      | some newDir =>
        let text := if filesystemIsRootDirId newDir.parentId then newFullPath else newFullPath ++ cstr "/"
        let (found, texts) ← heldDirNames dirNames newDir (text ++ newDir.name)
        pure (found, newFullPath :: text :: texts)
      | none => pure (none, [newFullPath])

/-- `filesystem_resolveDirPath`, with the texts that `newFullPath` holds. -/
def heldDirPath (path : CStr) (startingDirId : Oid) (startingPath : CStr) :
    FsProg (Option (Dir × CStr) × List CStr) :=
  match path with
  | 47 :: path => heldDirNames (stringSplit path 47) rootDir (cstr "/")
  | _ => do
    match ← startingDir startingDirId with
    | some currentDir => heldDirNames (stringSplit path 47) currentDir startingPath
    | none => pure (none, [startingPath])

theorem fst_heldDirNames : ∀ (names : List CStr) (d : Dir) (path : CStr),
    Prod.fst <$> heldDirNames names d path = resolveDirNames names d path := by
  intro names
  induction names with
  | nil => intro d path; rfl
  | cons name names ih =>
    intro d path
    unfold heldDirNames resolveDirNames
    split
    · exact ih d path
    · split
      · simp only [map_bind, map_pure]
        refine bind_congr fun x => ?_
        rw [← ih, map_eq_pure_bind]
      · simp only [map_bind]
        refine bind_congr fun x => ?_
        cases x with
        | none => rfl
        | some e =>
          simp only [map_bind, map_pure]
          rw [← ih, map_eq_pure_bind]

/-- **What is resolved** is what `filesystem_resolveDirPath` returns. -/
theorem fst_heldDirPath (path : CStr) (id : Oid) (start : CStr) :
    Prod.fst <$> heldDirPath path id start = filesystemResolveDirPath path id start := by
  unfold heldDirPath filesystemResolveDirPath
  split
  · exact fst_heldDirNames _ _ _
  · simp only [map_bind]
    refine bind_congr fun x => ?_
    cases x with
    | none => rfl
    | some d => exact fst_heldDirNames _ _ _

/-! ## The directories that are reached -/

/-- A text and its terminator fit in an array of 1024 bytes. -/
def FitsArray (text : CStr) : Prop := text.length < 1024

/-- The names from the root down to the directory are names of a path. -/
def Named (w : World) (id : Oid) : Prop := ∃ names, Leads w id names ∧ ∀ name ∈ names, IsName name

/-- **The condition on a tree**: the full path of every directory with such names fits. -/
def ShortPaths (w : World) : Prop :=
  ∀ id names, Leads w id names → (∀ name ∈ names, IsName name) → FitsArray (canonicalPath names)

/-- A directory that a resolution comes to, and the text there. -/
def Reached (w : World) (d : Dir) (path : CStr) : Prop := At w d path ∧ Named w d.id

theorem reached_root (w : World) : Reached w rootDir (cstr "/") :=
  ⟨at_root w, [], .root, fun _ hmem => absurd hmem List.not_mem_nil⟩

theorem Reached.fits {path : CStr} (hw : NoRoot w) (hshort : ShortPaths w) (h : Reached w d path) : FitsArray path := by
  obtain ⟨⟨-, names, hleads, rfl⟩, names', hleads', hnames⟩ := h
  have hsame : names' = names := hleads.unique hw hleads'
  exact hshort d.id names hleads (hsame ▸ hnames)

theorem Named.above (hw : NoRoot w) (h : Named w id) : Named w (w.above id) := by
  obtain ⟨names, hleads, hnames⟩ := h
  by_cases hroot : id = .root
  · rw [hroot, above_root hw]
    exact ⟨[], .root, fun _ hmem => absurd hmem List.not_mem_nil⟩
  · obtain ⟨d, hd, rfl, above, rfl, hup⟩ := hleads.up hroot
    rw [above_of_mem hd]
    exact ⟨above, hup, fun name hmem => hnames name (List.mem_append_left _ hmem)⟩

theorem Named.down (h : Named w d.id) (he : e ∈ w.dirs.docs) (hparent : e.parentId = d.id) (hname : IsName e.name) :
    Named w e.id := by
  obtain ⟨names, hleads, hnames⟩ := h
  refine ⟨names ++ [e.name], .down he (hparent ▸ hleads), fun name hmem => ?_⟩
  rcases List.mem_append.1 hmem with hmem | hmem
  · exact hnames name hmem
  · rw [List.mem_singleton.1 hmem]
    exact hname

theorem length_cutText_le (d : Dir) (path : CStr) : (cutText d path).length ≤ path.length := by
  unfold cutText cutAt
  split
  · exact le_rfl
  · split
    · rw [List.length_take]
      exact Nat.min_le_right _ _
    · exact le_rfl

/-- **The texts of the loop over the names** are no longer than the paths of the directories that it comes to. -/
theorem reads_heldDirNames (hw : NoRoot w) : ∀ {names : List CStr} {d : Dir} {path : CStr},
    (∀ name ∈ names, name ≠ [] ∧ 47 ∉ name) → Reached w d path →
    ∃ x, (heldDirNames names d path).Reads handle LooksIn w x ∧
      (∀ text ∈ x.2, ∃ e p, Reached w e p ∧ text.length ≤ p.length) ∧ ∀ y ∈ x.1, Reached w y.1 y.2 ∧ y.2 ∈ x.2 := by
  intro names
  induction names with
  | nil =>
    intro d path _ h
    refine ⟨(some (d, path), [path]), rfl, fun text hmem => ?_, fun y hy => ?_⟩
    · rw [List.mem_singleton.1 hmem]
      exact ⟨d, path, h, le_rfl⟩
    · obtain rfl := Option.some.inj hy
      exact ⟨h, List.mem_cons_self⟩
  | cons name names ih =>
    intro d path hnames h
    have hrest : ∀ n ∈ names, n ≠ [] ∧ 47 ∉ n := fun n hn => hnames n (List.mem_cons_of_mem name hn)
    obtain ⟨hne, hslash⟩ := hnames name List.mem_cons_self
    have hhere : ∀ text : CStr, text.length ≤ path.length → ∃ e p, Reached w e p ∧ text.length ≤ p.length :=
      fun text hlen => ⟨d, path, h, hlen⟩
    rw [heldDirNames]
    by_cases hdot : name = cstr "."
    · rw [if_pos (Or.inr hdot)]
      exact ih hrest h
    · rw [if_neg (not_or_intro hne hdot)]
      by_cases hdots : name = cstr ".."
      · rw [if_pos hdots]
        obtain ⟨e, path', hat, hid, hparent⟩ := reads_resolveParent hw h.1
        have hreached : Reached w e path' := ⟨hat, hid ▸ h.2.above hw⟩
        obtain ⟨x, hx, htexts, hfound⟩ := ih hrest hreached
        refine ⟨(x.1, path :: cutText d path :: x.2), Prog.reads_bind hparent (Prog.reads_bind hx rfl), ?_, ?_⟩
        · intro text hmem
          rcases List.mem_cons.1 hmem with rfl | hmem
          · exact hhere _ le_rfl
          · rcases List.mem_cons.1 hmem with rfl | hmem
            · exact hhere _ (length_cutText_le d path)
            · exact htexts text hmem
        · intro y hy
          obtain ⟨hy', hmem⟩ := hfound y hy
          exact ⟨hy', List.mem_cons_of_mem _ (List.mem_cons_of_mem _ hmem)⟩
      · rw [if_neg hdots]
        have hlook := reads_dirByName name h.1.1.has
        cases hfind : w.dirs.findIdx (name, d.id) with
        | none =>
          -- the rest of the names is not looked at
          rw [hfind] at hlook
          refine ⟨(none, [path]), Prog.reads_bind hlook rfl, fun text hmem => ?_,
            fun y hy => absurd hy (Option.not_mem_none y)⟩
          rw [List.mem_singleton.1 hmem]
          exact hhere _ le_rfl
        | some e =>
          rw [hfind] at hlook
          obtain ⟨he, hplace⟩ := Collection.findIdx_eq_some.1 hfind
          obtain ⟨hname, hparent⟩ := Prod.mk.inj hplace
          have hisname : IsName e.name := hname ▸ ⟨hne, hslash, hdot, hdots⟩
          have hdown := h.1.down hw he hparent
          set slashed := if filesystemIsRootDirId e.parentId then path else path ++ cstr "/" with hslashed
          have hreached : Reached w e (slashed ++ e.name) := ⟨hdown, h.2.down he hparent hisname⟩
          obtain ⟨x, hx, htexts, hfound⟩ := ih hrest hreached
          refine ⟨(x.1, path :: slashed :: x.2), Prog.reads_bind hlook (Prog.reads_bind hx rfl), ?_, ?_⟩
          · intro text hmem
            rcases List.mem_cons.1 hmem with rfl | hmem
            · exact hhere _ le_rfl
            · rcases List.mem_cons.1 hmem with rfl | hmem
              · refine ⟨e, slashed ++ e.name, hreached, ?_⟩
                rw [List.length_append]
                omega
              · exact htexts text hmem
          · intro y hy
            obtain ⟨hy', hmem⟩ := hfound y hy
            exact ⟨hy', List.mem_cons_of_mem _ (List.mem_cons_of_mem _ hmem)⟩

/-- **The texts of a resolution** are no longer than the paths of the directories that it comes to. -/
theorem reads_heldDirPath (hw : NoRoot w) (hstart : Leads w id names) (hnames : ∀ name ∈ names, IsName name)
    (path : CStr) :
    ∃ x, (heldDirPath path id (canonicalPath names)).Reads handle LooksIn w x ∧
      (∀ text ∈ x.2, ∃ e p, Reached w e p ∧ text.length ≤ p.length) ∧ ∀ y ∈ x.1, Reached w y.1 y.2 ∧ y.2 ∈ x.2 := by
  have hpieces : ∀ (s : CStr), ∀ name ∈ stringSplit s 47, name ≠ [] ∧ 47 ∉ name :=
    fun s name hmem => ⟨ne_nil_of_mem_pieces hmem, notMem_of_mem_stringSplit hmem⟩
  unfold heldDirPath
  split
  · exact reads_heldDirNames hw (hpieces _) (reached_root w)
  · rw [startingDir]
    by_cases hroot : id = .root
    · rw [if_pos (by simpa [filesystemIsRootDirId] using hroot), hstart.of_root hw hroot]
      exact reads_heldDirNames hw (hpieces _) (reached_root w)
    · rw [if_neg (by simpa [filesystemIsRootDirId] using hroot)]
      obtain ⟨d, hd, rfl, -⟩ := hstart.up hroot
      have hreached : Reached w d (canonicalPath names) := ⟨⟨Or.inr hd, names, hstart, rfl⟩, names, hstart, hnames⟩
      obtain ⟨x, hx, htexts⟩ := reads_heldDirNames hw (hpieces path) hreached
      exact ⟨x, Prog.reads_bind (reads_dirById hd) hx, htexts⟩

/-- Every path is resolved from there with texts that fit. -/
def PathsFit (w : World) (id : Oid) (start : CStr) : Prop :=
  ∀ path, ∃ x, Returns (heldDirPath path id start) w x ∧ ∀ text ∈ x.2, FitsArray text

theorem ShortPaths.pathsFit (h : ShortPaths w) (hw : NoRoot w) (hstart : Leads w id names)
    (hnames : ∀ name ∈ names, IsName name) : PathsFit w id (canonicalPath names) := by
  intro path
  obtain ⟨x, hreads, htexts, -⟩ := reads_heldDirPath hw hstart hnames path
  refine ⟨x, hreads.exec, fun text hmem => ?_⟩
  obtain ⟨e, p, hreached, hlen⟩ := htexts text hmem
  exact hlen.trans_lt (hreached.fits hw h)

/-! ## Resolving a full path -/

/-- The names of a full path are its pieces. -/
theorem stringSplit_flatMap : ∀ {names : List CStr}, (∀ name ∈ names, name ≠ [] ∧ 47 ∉ name) →
    stringSplit (names.flatMap fun name => 47 :: name) 47 = names := by
  intro names
  induction names with
  | nil => intro _; rfl
  | cons name names ih =>
    intro hnames
    obtain ⟨hne, hslash⟩ := hnames name List.mem_cons_self
    have hrest := ih fun n hn => hnames n (List.mem_cons_of_mem name hn)
    have hsingle : stringSplit name 47 = [name] := stringSplit_of_notMem hne hslash
    rw [List.flatMap_cons, List.cons_append, stringSplit_cons]
    cases names with
    | nil => rw [List.flatMap_nil, List.append_nil, hsingle]
    | cons next names =>
      rw [List.flatMap_cons, List.cons_append, stringSplit_cons] at hrest
      rw [List.flatMap_cons, List.cons_append, stringSplit_append, hsingle, hrest, List.singleton_append]

/-- The names lead to the directory. -/
theorem run_follow (h : Leads w id names) (hnames : ∀ name ∈ names, IsName name) :
    run w.follow .root names = some id := by
  induction h with
  | root => rfl
  | @down d above hd _ ih =>
    have hup := ih fun name hmem => hnames name (List.mem_append_left _ hmem)
    obtain ⟨-, -, hdot, hdots⟩ := hnames d.name (List.mem_append_right _ List.mem_cons_self)
    have hfind : w.dirs.findIdx (d.name, d.parentId) = some d := Collection.findIdx_eq_some.2 ⟨hd, rfl⟩
    refine run_append.2 ⟨d.parentId, hup, ?_⟩
    rw [run, World.follow, if_neg hdot, if_neg hdots, hfind]
    rfl

/-- **The full path of a directory leads to it.** -/
theorem walk_canonicalPath (h : Leads w id names) (hnames : ∀ name ∈ names, IsName name) :
    w.walk (canonicalPath names) .root = some id := by
  have hsplit : stringSplit (canonicalPath names) 47 = names := by
    by_cases hnil : names = []
    · rw [hnil]
      rfl
    · rw [canonicalPath_of_ne hnil]
      exact stringSplit_flatMap fun name hmem => ⟨(hnames name hmem).1, (hnames name hmem).2.1⟩
  have hstart : startOf (canonicalPath names) .root = .root := by
    unfold startOf
    split <;> rfl
  rw [World.walk, hstart, hsplit]
  exact run_follow h hnames

/-- **The condition is needed**: the text of a full path that is resolved is that path. -/
theorem PathsFit.short (h : PathsFit w .root (cstr "/")) (hw : NoRoot w) : ShortPaths w := by
  intro id names hleads hnames
  obtain ⟨x, hx, hfit⟩ := h (canonicalPath names)
  -- what is resolved is found with its full path
  obtain ⟨result, hresult, hwalk, hat⟩ := reads_resolveDirPath hw (.root : Leads w .root []) (canonicalPath names)
  rw [walk_canonicalPath hleads hnames] at hwalk
  obtain ⟨⟨dir, full⟩, rfl, hid⟩ := Option.map_eq_some_iff.1 hwalk
  obtain ⟨-, names', hleads', hpath⟩ := hat dir full rfl
  have hsame : names' = names := hleads.unique hw (hid ▸ hleads')
  -- and the text is one of those that are held
  obtain ⟨y, hy, -, hfound⟩ := reads_heldDirPath hw (.root : Leads w .root [])
    (fun _ hmem => absurd hmem List.not_mem_nil)
    (canonicalPath names)
  have hxy : x = y := hx.unique hy.exec
  have hfst : (filesystemResolveDirPath (canonicalPath names) .root (canonicalPath [])).Reads handle LooksIn w y.1 := by
    rw [← fst_heldDirPath, map_eq_pure_bind]
    exact Prog.reads_bind hy rfl
  have hheld : y.1 = some (dir, full) := Returns.unique hfst.exec hresult.exec
  have hfull : FitsArray full := hfit full (hxy ▸ (hfound _ hheld).2)
  rw [hpath, hsame] at hfull
  exact hfull

/-- What a path from there resolves to is reached. -/
theorem reads_reached (hw : NoRoot w) (hstart : Leads w id names) (hnames : ∀ name ∈ names, IsName name) (path : CStr) :
    ∃ result, (filesystemResolveDirPath path id (canonicalPath names)).Reads handle LooksIn w result ∧
      ∀ y ∈ result, Reached w y.1 y.2 := by
  obtain ⟨x, hx, -, hfound⟩ := reads_heldDirPath hw hstart hnames path
  refine ⟨x.1, ?_, fun y hy => (hfound y hy).1⟩
  rw [← fst_heldDirPath, map_eq_pure_bind]
  exact Prog.reads_bind hx rfl

/-! ## What `mkdir` and `cd` keep -/

/-- The console is in a directory that is reached by names of a path; every directory has its parent. -/
structure Entered (c : Console) (w : World) : Prop where
  noRoot : NoRoot w
  parents : ∀ d ∈ w.dirs.docs, w.HasDir d.parentId
  current : ∃ names, Leads w c.currentDirId names ∧ c.currentDirPrompt = canonicalPath names ∧
    ∀ name ∈ names, IsName name

/-- The full path of a name in the directory of the prompt. -/
def pathIn (prompt name : CStr) : CStr := if prompt = cstr "/" then 47 :: name else prompt ++ 47 :: name

theorem canonicalPath_pathIn (hnames : ∀ name ∈ names, IsName name) (name : CStr) :
    canonicalPath (names ++ [name]) = pathIn (canonicalPath names) name := by
  rw [canonicalPath_append]
  unfold pathIn
  cases names with
  | nil => rfl
  | cons first names =>
    -- a path of a name is longer than that of the root
    have hne : first ≠ [] := (hnames first List.mem_cons_self).1
    have hlong : canonicalPath (first :: names) ≠ cstr "/" := by
      obtain ⟨b, rest, rfl⟩ := List.exists_cons_of_ne_nil hne
      rw [canonicalPath_of_ne (List.cons_ne_nil _ _), List.flatMap_cons]
      intro heq
      exact absurd (congrArg List.length heq) (by simp [cstr])
    rw [if_neg hlong, canonicalPath_of_ne (List.cons_ne_nil _ _)]

/-- **A new directory** is at the end of every way on which it is. -/
theorem Leads.added (hdocs : v.dirs.docs = w.dirs.docs ++ [d]) (hnew : ¬w.HasDir d.id)
    (hparents : ∀ e ∈ w.dirs.docs, w.HasDir e.parentId) (hparent : w.HasDir d.parentId) (h : Leads v id names) :
    Leads w id names ∨ id = d.id ∧ ∃ above, names = above ++ [d.name] ∧ Leads w d.parentId above := by
  induction h with
  | root => exact Or.inl .root
  | @down e above he _ ih =>
    rw [hdocs] at he
    rcases List.mem_append.1 he with he | he
    · -- a directory that was there is not in the new one
      rcases ih with hup | ⟨hid, -⟩
      · exact Or.inl (.down he hup)
      · exact absurd (hid ▸ hparents e he) hnew
    · obtain rfl := List.mem_singleton.1 he
      rcases ih with hup | ⟨hid, -⟩
      · exact Or.inr ⟨rfl, above, rfl, hup⟩
      · exact absurd (hid ▸ hparent) hnew

/-- The directories are those of before, and perhaps one more in the current one. -/
def Grown (c : Console) (w v : World) (P : CStr → Prop) : Prop :=
  v.dirs = w.dirs ∨ ∃ d, v.dirs.docs = w.dirs.docs ++ [d] ∧ ¬w.HasDir d.id ∧ d.parentId = c.currentDirId ∧ P d.name

theorem Entered.has (h : Entered c w) : w.HasDir c.currentDirId := by
  obtain ⟨names, hleads, -⟩ := h.current
  exact hleads.hasDir

theorem Entered.grown {P : CStr → Prop} (h : Entered c w) (hg : Grown c w v P) : Entered c v := by
  rcases hg with hd | ⟨d, hdocs, hnew, hparent, -⟩
  · have hhas : ∀ a, v.HasDir a ↔ w.HasDir a := fun a => by simp only [World.HasDir, hd]
    obtain ⟨names, hleads, hprompt, hnames⟩ := h.current
    refine ⟨fun e he => h.noRoot e (hd ▸ he), fun e he => (hhas _).2 (h.parents e (hd ▸ he)), names, ?_,
      hprompt, hnames⟩
    exact hleads.stay fun e he _ => hd ▸ he
  · have hgrow : ∀ a, w.HasDir a → v.HasDir a := by
      rintro a (hroot | ⟨e, he, hid⟩)
      · exact Or.inl hroot
      · exact Or.inr ⟨e, hdocs ▸ List.mem_append_left _ he, hid⟩
    have hmem : ∀ e ∈ v.dirs.docs, e ∈ w.dirs.docs ∨ e = d := by
      intro e he
      rw [hdocs] at he
      exact (List.mem_append.1 he).imp_right List.mem_singleton.1
    obtain ⟨names, hleads, hprompt, hnames⟩ := h.current
    refine ⟨?_, ?_, names, hleads.stay fun e he _ => hdocs ▸ List.mem_append_left _ he, hprompt, hnames⟩
    · intro e he
      rcases hmem e he with he | rfl
      · exact h.noRoot e he
      · exact fun hroot => hnew (Or.inl hroot)
    · intro e he
      rcases hmem e he with he | rfl
      · exact hgrow _ (h.parents e he)
      · exact hgrow _ (hparent ▸ h.has)

/-- **The full paths stay short** if the new one is. -/
theorem ShortPaths.grown (hshort : ShortPaths w) (h : Entered c w)
    (hg : Grown c w v fun name => IsName name → FitsArray (pathIn c.currentDirPrompt name)) : ShortPaths v := by
  intro id names hleads hnames
  rcases hg with hd | ⟨d, hdocs, hnew, hparent, hname⟩
  · exact hshort id names (hleads.stay fun e he _ => hd ▸ he) hnames
  · have hcur : w.HasDir d.parentId := hparent ▸ h.has
    rcases hleads.added hdocs hnew h.parents hcur with hold | ⟨-, above, rfl, habove⟩
    · exact hshort id names hold hnames
    · obtain ⟨names', hleads', hprompt, hnames'⟩ := h.current
      have hsame : above = names' := hleads'.unique h.noRoot (hparent ▸ habove)
      have hfits := hname (hnames d.name (List.mem_append_right _ List.mem_cons_self))
      rw [hprompt, ← canonicalPath_pathIn hnames'] at hfits
      rw [hsame]
      exact hfits

theorem grown_mkdir {P : CStr → Prop} (dirName : Option CStr) (hP : ∀ name ∈ dirName, P name) :
    (makeDir c dirName).Ok (worldSpec fun _ _ _ => True) (fun _ v => Grown c w v P) (fun _ _ => True) w := by
  unfold makeDir
  cases dirName with
  | none => exact Or.inl rfl
  | some dirName =>
    dsimp only
    rw [Prog.ok_bind]
    refine addDir_places (fun v hd _ => Or.inl hd) fun v u x n _ _ _ _ _ _ hins => ?_
    obtain ⟨hfresh, hdocs⟩ := Collection.insert_eq_some.1 hins
    refine Or.inr ⟨_, hdocs, ?_, rfl, hP dirName rfl⟩
    rintro (hroot | ⟨e, he, hid⟩)
    · exact Oid.noConfusion hroot
    · exact (hfresh e he).1 hid

theorem entered_cd (h : Entered c w) (dirName : Option CStr) :
    (changeDir c dirName).Ok (worldSpec fun _ _ _ => True) (fun c' v => v = w ∧ Entered c' w) (fun _ _ => True) w := by
  obtain ⟨names, hleads, hprompt, hnames⟩ := h.current
  obtain ⟨result, hreads, hreached⟩ := reads_reached h.noRoot hleads hnames (dirName.getD (cstr "/"))
  unfold changeDir
  rw [Prog.ok_bind, hprompt]
  refine hreads.ok ?_
  cases result with
  | none => exact ⟨rfl, h⟩
  | some y =>
    obtain ⟨⟨-, names', hleads', hpath⟩, names'', hleads'', hnames''⟩ := hreached y rfl
    have hsame : names'' = names' := hleads'.unique h.noRoot hleads''
    exact ⟨rfl, h.noRoot, h.parents, names', hleads', hpath, hsame ▸ hnames''⟩

/-! ## Sessions of lines -/

/-- A line that is typed, and what is decided on the way. -/
def lineStep (sort : NodeSort) (fuel : ℕ) (s : Session) (x : CStr × List Choice) : Option Session :=
  match (Line.consoleLine sort fuel s.console x.1).exec handle s.world x.2 with
  | some (.ok (c, _), w) => some ⟨c, w⟩
  | _ => none

/-- A line of `mkdir` or `cd`. -/
def OnDirs (line : CStr) : Prop :=
  ∃ args, Line.lineCommand line = some (.mkdir, args) ∨ Line.lineCommand line = some (.cd, args)

/-- **The condition on a line**: the name that `mkdir` is given, if it is one of a path, makes a full path that fits. -/
def KeepsShort (s : Session) (x : CStr × List Choice) : Prop :=
  ∀ name args, Line.lineCommand x.1 = some (.mkdir, name :: args) → IsName name →
    FitsArray (pathIn s.console.currentDirPrompt name)

/-- The prompt fits, and so do the texts of every path that is resolved from the current directory or the root. -/
def AllFit (s : Session) : Prop :=
  FitsArray s.console.currentDirPrompt ∧ PathsFit s.world s.console.currentDirId s.console.currentDirPrompt ∧
    PathsFit s.world .root (cstr "/")

theorem lineStep_ok {s s' : Session} {x : CStr × List Choice} {Q : Console → World → Prop}
    (hok : (Line.consoleLine sort fuel s.console x.1).Ok (worldSpec fun _ _ _ => True) (fun y v => Q y.1 v)
      (fun _ _ => True)
      s.world) (hs : lineStep sort fuel s x = some s') : Q s'.console s'.world := by
  unfold lineStep at hs
  split at hs
  · rename_i c exit v hexec
    obtain rfl := Option.some.inj hs
    exact hok.exec_along (Prog.along_of_mem fun _ _ _ _ => trivial) hexec
  · exact absurd hs.symm (Option.some_ne_none _)

/-- **One line** of `mkdir` or `cd`: the directories grow in the old current directory, and the console is in one that
is reached. -/
theorem onDirs_step {s s' : Session} {x : CStr × List Choice} (h : Entered s.console s.world) (hline : OnDirs x.1)
    (hs : lineStep sort fuel s x = some s') : Entered s'.console s'.world ∧
      Grown s.console s.world s'.world fun name => ∃ args, Line.lineCommand x.1 = some (.mkdir, name :: args) := by
  obtain ⟨args, hmkdir | hcd⟩ := hline
  · refine lineStep_ok (Q := fun c v => Entered c v ∧ Grown s.console s.world v fun name =>
      ∃ args, Line.lineCommand x.1 = some (.mkdir, name :: args)) ?_ hs
    rw [Line.consoleLine_command hmkdir rfl (Nat.zero_le _)]
    simp only [Command.prog, Prog.mapStop_bind, Prog.ok_bind, Prog.ok_mapStop, Prog.mapStop_pure, Prog.ok_pure]
    refine (grown_mkdir args[0]? ?_).imp fun _ v hv => ⟨h.grown hv, hv⟩
    intro name hname
    cases args with
    | nil => exact absurd hname (Option.not_mem_none _)
    | cons first args =>
      obtain rfl := Option.some.inj hname
      exact ⟨args, hmkdir⟩
  · refine lineStep_ok (Q := fun c v => Entered c v ∧ Grown s.console s.world v fun name =>
      ∃ args, Line.lineCommand x.1 = some (.mkdir, name :: args)) ?_ hs
    rw [Line.consoleLine_command hcd rfl (Nat.zero_le _)]
    simp only [Command.prog, Prog.ok_bind, Prog.ok_mapStop, Prog.ok_pure]
    refine (entered_cd h args[0]?).imp fun c' v hv => ?_
    obtain ⟨rfl, hentered⟩ := hv
    exact ⟨hentered, Or.inl rfl⟩

theorem entered_start (hdirs : w.dirs.docs = []) : Entered .start w := by
  have hnone : ∀ d, d ∉ w.dirs.docs := fun d hd => absurd (hdirs ▸ hd) List.not_mem_nil
  exact ⟨fun d hd => absurd hd (hnone d), fun d hd => absurd hd (hnone d), [], .root, rfl,
    fun _ hmem => absurd hmem List.not_mem_nil⟩

theorem shortPaths_start (hdirs : w.dirs.docs = []) : ShortPaths w := by
  intro id names hleads _
  cases hleads with
  | root => exact Nat.lt_of_sub_pos (by decide)
  | down hd _ => exact absurd (hdirs ▸ hd) List.not_mem_nil

theorem allFit_iff {s : Session} (h : Entered s.console s.world) : AllFit s ↔ ShortPaths s.world := by
  obtain ⟨names, hleads, hprompt, hnames⟩ := h.current
  constructor
  · intro hfit
    exact hfit.2.2.short h.noRoot
  · intro hshort
    refine ⟨?_, ?_, hshort.pathsFit h.noRoot .root fun _ hmem => absurd hmem List.not_mem_nil⟩
    · rw [hprompt]
      exact hshort _ names hleads hnames
    · rw [hprompt]
      exact hshort.pathsFit h.noRoot hleads hnames

/-- **Full paths fit their arrays.** In every state that a session of `mkdir` and `cd` reaches from a store without
directories, the texts of all paths that are resolved, and the prompt, fit just when the full paths of all directories
do that are reached by names of a path. They do in every session in which each such name that `mkdir` is given makes
with the prompt a full path that fits. -/
theorem full_paths_fit (sort : NodeSort) (fuel : ℕ) (w : World) (lines : List (CStr × List Choice)) (s : Session)
    (hdirs : w.dirs.docs = []) (hlines : ∀ x ∈ lines, OnDirs x.1)
      (hrun : run (lineStep sort fuel) ⟨.start, w⟩ lines = some s) :
    (AllFit s ↔ ShortPaths s.world) ∧ (Along (lineStep sort fuel) KeepsShort ⟨.start, w⟩ lines → AllFit s) := by
  have hdir : Along (lineStep sort fuel) (fun _ x => OnDirs x.1) ⟨.start, w⟩ lines := along_of_mem hlines
  have hentered : Entered s.console s.world :=
    run_inv (I := fun s => Entered s.console s.world) (fun _ _ _ h hline hs => (onDirs_step h hline hs).1)
      (entered_start hdirs) hdir hrun
  refine ⟨allFit_iff hentered, fun hshort => (allFit_iff hentered).2 ?_⟩
  have hkept : Entered s.console s.world ∧ ShortPaths s.world := by
    refine run_inv (I := fun s => Entered s.console s.world ∧ ShortPaths s.world) ?_
      ⟨entered_start hdirs, shortPaths_start hdirs⟩ (hdir.and hshort) hrun
    rintro s x t ⟨hs, hpaths⟩ ⟨hline, hkeeps⟩ hstep
    obtain ⟨ht, hgrown⟩ := onDirs_step hs hline hstep
    -- a new directory is one that the condition is about
    have hgrown' : Grown s.console s.world t.world fun name =>
        IsName name → FitsArray (pathIn s.console.currentDirPrompt name) := by
      refine hgrown.imp_right ?_
      rintro ⟨d, hdocs, hnew, hparent, args, hmkdir⟩
      exact ⟨d, hdocs, hnew, hparent, hkeeps d.name args hmkdir⟩
    exact ⟨ht, hpaths.grown hs hgrown'⟩
  exact hkept.2

/-- `mkdir a`, `cd a`, `mkdir b`, `cd b/..`. -/
def shortSession : List (CStr × List Choice) :=
  [(cstr "mkdir a", List.replicate 4 .done), (cstr "cd a", [.done]), (cstr "mkdir b", List.replicate 4 .done),
    (cstr "cd b/..", List.replicate 3 .done)]

instance (text : CStr) : Decidable (FitsArray text) := inferInstanceAs (Decidable (text.length < 1024))

/-- The condition as it is computed. -/
def keepsShort (s : Session) (x : CStr × List Choice) : Bool :=
  match Line.lineCommand x.1 with
  | some (.mkdir, name :: _) => decide (IsName name → FitsArray (pathIn s.console.currentDirPrompt name))
  | _ => true

theorem keepsShort_iff {s : Session} {x : CStr × List Choice} (h : keepsShort s x = true) : KeepsShort s x := by
  intro name args hline
  unfold keepsShort at h
  rw [hline] at h
  exact of_decide_eq_true h

theorem full_paths_fit_short : ∃ s, run (lineStep insertionSort 0) ⟨.start, .empty fun _ => []⟩ shortSession = some s ∧
    s.console.currentDirPrompt = cstr "/a" ∧ s.world.dirs.docs.length = 2 ∧ AllFit s := by
  obtain ⟨s, hs, hprompt, hdocs⟩ : ∃ s ∈ run (lineStep insertionSort 0) ⟨.start, .empty fun _ => []⟩ shortSession,
      s.console.currentDirPrompt = cstr "/a" ∧ s.world.dirs.docs.length = 2 := by decide +kernel
  have hlines : ∀ x ∈ shortSession, OnDirs x.1 := by
    intro x hx
    simp only [shortSession, List.mem_cons, List.not_mem_nil, or_false] at hx
    rcases hx with rfl | rfl | rfl | rfl
    · exact ⟨[cstr "a"], Or.inl rfl⟩
    · exact ⟨[cstr "a"], Or.inr rfl⟩
    · exact ⟨[cstr "b"], Or.inl rfl⟩
    · exact ⟨[cstr "b/.."], Or.inr rfl⟩
  have hkeeps : Along (lineStep insertionSort 0) (fun s x => keepsShort s x = true) ⟨.start, .empty fun _ => []⟩
      shortSession := by decide +kernel
  have hfit := full_paths_fit insertionSort 0 (.empty fun _ => []) shortSession s rfl hlines hs
  exact ⟨s, hs, hprompt, hdocs, hfit.2 (hkeeps.mono fun _ _ h => keepsShort_iff h)⟩

/-- `mkdir` and `cd` of a name of 400 letters, three times. -/
def deepSession : List (CStr × List Choice) :=
  let name : CStr := List.replicate 400 97
  (List.replicate 3 [(cstr "mkdir " ++ name, List.replicate 4 Choice.done),
    (cstr "cd " ++ name, List.replicate 2 Choice.done)]).flatten

/-- **A prompt of 1203 characters**, by lines of at most 406. -/
theorem prompt_overflows : (∀ x ∈ deepSession, x.1.length ≤ 510) ∧
    ∃ s, run (lineStep insertionSort 0) ⟨.start, .empty fun _ => []⟩ deepSession = some s ∧
      s.console.currentDirPrompt.length = 1203 ∧ ¬AllFit s := by
  have hlines : ∀ x ∈ deepSession, x.1.length ≤ 510 := by decide +kernel
  obtain ⟨s, hs, hprompt⟩ : ∃ s ∈ run (lineStep insertionSort 0) ⟨.start, .empty fun _ => []⟩ deepSession,
      s.console.currentDirPrompt.length = 1203 := by decide +kernel
  refine ⟨hlines, s, hs, hprompt, fun hfit => ?_⟩
  have hlt : s.console.currentDirPrompt.length < 1024 := hfit.1
  omega

end Mdfs.FileSystem
