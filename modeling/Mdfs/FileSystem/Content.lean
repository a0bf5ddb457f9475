import Mdfs.FileSystem.Ownership
import Mdfs.FileSystem.Split

/-!
# What is stored is what is read back

`Stores disk bs css` says that every copy in `css` holds its block of `bs` on the
disk. An import establishes it, every later operation that spares the file keeps
it, and the gathering loop then reads the blocks in their order.

* `kept_holds`: a stored file keeps its content over every change that spares it.
* `content_read_back`: reading it gives the text, or nothing when some block is
  on no node that answers.
-/

namespace Mdfs.FileSystem

open Lib

variable {C : World → Req → Choice → Prop} {E : Stop → World → Prop} {w w' : World} {sort : NodeSort}

/-! ## The content of a stored file -/

/-- Every copy in `css` holds its block of `bs`. -/
abbrev Stores (disk : Slot → CStr) (bs : List CStr) (css : List (List FileBlock)) : Prop :=
  List.Forall₂ (fun b cs => ∀ c ∈ cs, disk c.slot = b) bs css

/-- The copy that a request asks a node for. -/
def Req.copyAsked : Req → Option FileBlock
  | .getBlock copy => some copy
  | _ => none

/-- A node that answers `GET_BLOCK` answers the string last set in the block. -/
def Honest (w : World) (r : Req) (c : Choice) : Prop :=
  ∀ copy ∈ r.copyAsked, c.content = none ∨ c.content = some (w.disk copy.slot)

/-- The nodes in `up` are active and answer, the others are not or do not. -/
def Answering (up : CStr → Bool) (w : World) (r : Req) (c : Choice) : Prop :=
  ∀ copy ∈ r.copyAsked, c.content = if up copy.nodeId then some (w.disk copy.slot) else none

/-- The local file that a request opens. -/
def Req.routeOpened : Req → Option CStr
  | .openFile route => some route
  | _ => none

/-- The import of the text `content`, which is what the local file has. -/
def Imports (content : CStr) (w : World) (r : Req) (c : Choice) : Prop :=
  (∀ _route ∈ r.routeOpened, c.content = some content) ∧ FewBlocks w r c

/-- The request deletes, moves or renames the file `id`. -/
def Req.displaces (id : Oid) : Req → Bool
  | .fileDelete i => i = id
  | .fileDeleteAll => true
  | .fileSetParent i _ => i = id
  | .fileSetName i _ => i = id
  | _ => false

/-- A later step: the file `id` stays where it is, and nodes answer what they hold. -/
def Spares (id : Oid) (w : World) (r : Req) (c : Choice) : Prop :=
  r.displaces id = false ∧ Honest w r c ∧ FewBlocks w r c

instance (content : CStr) (w : World) (r : Req) (c : Choice) : Decidable (Imports content w r c) :=
  inferInstanceAs (Decidable ((∀ _route ∈ r.routeOpened, c.content = some content) ∧ FewBlocks w r c))

instance (id : Oid) (w : World) (r : Req) (c : Choice) : Decidable (Spares id w r c) :=
  inferInstanceAs (Decidable (r.displaces id = false ∧
    (∀ copy ∈ r.copyAsked, c.content = none ∨ c.content = some (w.disk copy.slot)) ∧ FewBlocks w r c))

/-- **The content of a file**: it is stored under its name, and its copies hold `bs`. -/
structure Holds (id : Oid) (name : CStr) (parentId : Oid) (bs : List CStr) (w : World) : Prop where
  owned : Owned w
  text : ∀ b ∈ bs, 0 ∉ b
  file : ∃ f ∈ w.files.docs, f.id = id ∧ f.name = name ∧ f.parentId = parentId ∧ Stores w.disk bs f.blocks

theorem Stores.frame {disk disk' : Slot → CStr} {bs : List CStr} {css : List (List FileBlock)}
    (h : Stores disk bs css) (hd : ∀ c ∈ css.flatten, disk' c.slot = disk c.slot) : Stores disk' bs css := by
  induction h with
  | nil => exact .nil
  | cons hcs _ ih =>
    refine .cons (fun c hc => ?_) (ih fun c hc => hd c (List.mem_append_right _ hc))
    rw [hd c (List.mem_append_left _ hc), hcs c hc]

theorem Stores.map {disk : Slot → CStr} {bs : List CStr} {css : List (List FileBlock)} (h : Stores disk bs css)
    {g : List FileBlock → List FileBlock} (hg : ∀ cs, g cs ⊆ cs) : Stores disk bs (css.map g) := by
  induction h with
  | nil => exact .nil
  | cons hcs _ ih => exact .cons (fun c hc => hcs c (hg _ hc)) ih

theorem Stores.modify {disk : Slot → CStr} {bs : List CStr} {css : List (List FileBlock)}
    (h : Stores disk bs css) {i : ℕ} {g : List FileBlock → List FileBlock}
    (hg : ∀ cs b, css[i]? = some cs → bs[i]? = some b → ∀ c ∈ g cs, disk c.slot = b) :
    Stores disk bs (css.modify i g) := by
  induction h generalizing i with
  | nil => cases i <;> exact .nil
  | @cons b cs bs css hcs h ih =>
    cases i with
    | zero => exact .cons (hg cs b rfl rfl) h
    | succ i => exact .cons hcs (ih fun cs b hcs hb => hg cs b hcs hb)

theorem Stores.get {disk : Slot → CStr} {bs : List CStr} {css : List (List FileBlock)} (h : Stores disk bs css)
    {i : ℕ} {b : CStr} {cs : List FileBlock} (hb : bs[i]? = some b) (hcs : css[i]? = some cs) :
    ∀ c ∈ cs, disk c.slot = b := by
  induction h generalizing i with
  | nil => cases hb
  | cons h0 _ ih =>
    cases i with
    | zero => cases hb; cases hcs; exact h0
    | succ i => exact ih hb hcs

/-- The copies that a distribution returns hold their blocks, each up to its first zero byte. -/
theorem stores_of_sends {disk : Slot → CStr} : ∀ {bs : List (List UInt8)} {css : List (List FileBlock)},
    bs.length = css.length → (∀ op ∈ sendsOf bs css, disk op.slot = upToNul op.block) →
    Stores disk (bs.map upToNul) css := by
  intro bs
  induction bs with
  | nil => intro css h _; cases css with
    | nil => exact .nil
    | cons cs css => simp at h
  | cons b bs ih =>
    intro css h hd
    cases css with
    | nil => simp at h
    | cons cs css =>
      have hsends : sendsOf (b :: bs) (cs :: css) = cs.map (FileBlock.sendOf b) ++ sendsOf bs css := by
        simp [sendsOf]
      rw [hsends] at hd
      refine .cons (fun c hc => ?_) (ih (by simpa using h) fun op hop => hd op (List.mem_append_right _ hop))
      have hop := hd (c.sendOf b) (List.mem_append_left _ (List.mem_map_of_mem hc))
      rw [slot_sendOf] at hop
      rw [hop]
      rfl

variable {id : Oid} {name : CStr} {parentId : Oid} {bs : List CStr}

/-- The copies of a stored file are used slots. -/
theorem Owned.used_of_copy (h : Owned w) {f : File} (hf : f ∈ w.files.docs) {c : FileBlock}
    (hc : c ∈ f.blocks.flatten) : w.Used c.slot := (h.used _).2 (mem_slots_of_copy hf hc)

/-- The file is still stored, and the disk is the same in its slots. -/
theorem Holds.same (h : Holds id name parentId bs w) (hO : Owned w')
    (hf : ∀ f ∈ w.files.docs, f.id = id → f ∈ w'.files.docs)
    (hd : ∀ s, w.Used s → w'.disk s = w.disk s) : Holds id name parentId bs w' := by
  obtain ⟨f, hfw, hid, hname, hparent, hst⟩ := h.file
  exact ⟨hO, h.text, f, hf f hfw hid, hid, hname, hparent,
    hst.frame fun c hc => hd _ (h.owned.used_of_copy hfw hc)⟩

/-- Every document is rewritten by `g`, which leaves the file's place and takes
no block of it to a copy with other bytes. -/
theorem Holds.rewrite (h : Holds id name parentId bs w) (hO : Owned w') {g : File → File}
    (hdocs : w'.files.docs = w.files.docs.map g)
    (hg : ∀ f ∈ w.files.docs, f.id = id → (g f).id = f.id ∧ (g f).name = f.name ∧
      (g f).parentId = f.parentId ∧ (Stores w.disk bs f.blocks → Stores w'.disk bs (g f).blocks)) :
    Holds id name parentId bs w' := by
  obtain ⟨f, hf, hid, hname, hparent, hst⟩ := h.file
  obtain ⟨h1, h2, h3, h4⟩ := hg f hf hid
  refine ⟨hO, h.text, g f, ?_, h1.trans hid, h2.trans hname, h3.trans hparent, h4 hst⟩
  rw [hdocs]
  exact List.mem_map_of_mem hf

theorem Holds.imported (h : Holds id name parentId bs w) {bs' : List (List UInt8)} {g : File}
    (hi : Imported w w' bs' g) (hshort : g.blocks.length < 65536) : Holds id name parentId bs w' := by
  refine h.same (h.owned.imported hi hshort) (fun f hf _ => ?_) fun s hs => ?_
  · rw [(Collection.insert_eq_some.1 hi.files).2]
    exact List.mem_append_left _ hf
  · exact hi.dist.frame s fun hS => (hi.dist.free s hS).not_used hs

theorem Holds.addCopy (h : Holds id name parentId bs w) {f : File} (hf : f ∈ w.files.docs) {b : ℕ}
    {cs : List FileBlock} (hcs : f.blocks[b]? = some cs) {copy c : FileBlock} (hc : c ∈ cs)
    (hcopy : Copied w w' f.id cs b copy (upToNul (w.disk c.slot))) : Holds id name parentId bs w' := by
  have hdocs : w'.files.docs = w.files.rewrite f.id (File.addCopy b copy) := by
    rw [hcopy.world]; exact docs_addCopy _ _ _ _
  have hframe : ∀ s, w.Used s → w'.disk s = w.disk s := fun s hs =>
    hcopy.frame s fun he => hcopy.free.not_used (he ▸ hs)
  refine h.rewrite (h.owned.addCopy hf hcs hcopy) hdocs fun g hg hid => ?_
  have hold : Stores w.disk bs g.blocks → Stores w'.disk bs g.blocks := fun hst =>
    hst.frame fun c hc => hframe _ (h.owned.used_of_copy hg hc)
  split
  case isFalse => exact ⟨rfl, rfl, rfl, hold⟩
  case isTrue hgf =>
    cases Collection.eq_of_key hg hf hgf
    refine ⟨rfl, rfl, rfl, fun hst => (hold hst).modify fun cs' t hcs' ht c' hc' => ?_⟩
    cases hcs.symm.trans hcs'
    have hdata := hst.get ht hcs
    have hct : upToNul (w.disk c.slot) = t := by
      rw [hdata c hc]; exact upToNul_eq (h.text t (List.mem_of_getElem? ht))
    have hnew : ∀ c'' ∈ cs, w'.disk c''.slot = t := fun c'' hc'' => by
      rw [hframe _ (h.owned.used_of_copy hg (List.mem_flatten.2 ⟨cs, List.mem_of_getElem? hcs, hc''⟩))]
      exact hdata c'' hc''
    split at hc'
    · exact hnew c' hc'
    · rcases List.mem_append.1 hc' with hc' | hc'
      · exact hnew c' hc'
      · rw [List.mem_singleton.1 hc', hcopy.disk, hct]

theorem Holds.pullCopy (h : Holds id name parentId bs w) {f : File} (hf : f ∈ w.files.docs) {b : ℕ}
    {cs : List FileBlock} (hcs : f.blocks[b]? = some cs) {copy : FileBlock} (hcopy : copy ∈ cs) :
    Holds id name parentId bs
      { w.mapBits (unmark [copy.slot]) with files := w.files.update f.id (File.pullCopy b copy) } := by
  refine h.rewrite (h.owned.pullCopy hf hcs hcopy) (docs_pullCopy _ _ _ _) fun g hg _ => ?_
  split
  case isFalse => exact ⟨rfl, rfl, rfl, fun hst => hst⟩
  case isTrue =>
    refine ⟨rfl, rfl, rfl, fun hst => hst.modify fun ds t hds ht c hc => ?_⟩
    exact hst.get ht hds c (List.mem_of_mem_filter hc)

theorem Holds.renewed (h : Holds id name parentId bs w) {nodeId : CStr} {count : UInt16}
    (hr : Renewed w w' nodeId count) : Holds id name parentId bs w' := by
  refine h.rewrite (h.owned.renewed hr) hr.files fun g _ _ => ⟨rfl, rfl, rfl, fun hst => ?_⟩
  rw [hr.world]
  exact hst.map fun cs => List.filter_subset_self cs

theorem Holds.dropFile (h : Holds id name parentId bs w) {f : File} (hf : f ∈ w.files.docs) (hid : f.id ≠ id) :
    Holds id name parentId bs (w.dropFile f) := by
  refine h.same (h.owned.dropFile hf) (fun g hg hgid => ?_) fun _ _ => rfl
  refine Collection.mem_remove.2 ⟨hg, ?_⟩
  simpa [hgid] using Ne.symm hid

/-- Another file moved or renamed. -/
theorem Holds.updateFile (h : Holds id name parentId bs w) {f : File} (hid : f.id ≠ id) {g : File → File}
    (hg : ∀ f, (g f).id = f.id) (hblocks : ∀ f, (g f).blocks = f.blocks) :
    Holds id name parentId bs { w with files := w.files.update f.id g } := by
  refine h.same (h.owned.updateFile hg hblocks) (fun a ha haid => ?_) fun _ _ => rfl
  rcases Collection.docs_update_or (c := w.files) (k := f.id) (f := g) with hdocs | hsame
  · simp only [hdocs]
    exact List.mem_map.2 ⟨a, ha, if_neg fun he => hid (he.symm.trans haid)⟩
  · simp only [hsame]; exact ha

/-- **The changes that spare the file keep its content.** -/
theorem kept_holds : Kept (Spares id) (Holds id name parentId bs) where
  owned h := h.owned
  untouched h hu := h.same (h.owned.untouched hu) (fun f hf _ => by rw [hu.world]; exact hf) hu.frame
  imported h hask hi := by
    obtain ⟨u, c, -, -, hmet, -⟩ := hask.met
    exact h.imported hi (hmet.2.2 _ rfl)
  copied h hf hcs hc hch hblock hcopied := by
    rcases hch.2.1 _ rfl with hnone | hsome
    · rw [hnone] at hblock; cases hblock
    · rw [hsome] at hblock
      cases hblock
      exact h.addCopy hf hcs hc hcopied
  pulled h hf hcs hc := h.pullCopy hf hcs hc
  dropped h hf hC := by
    obtain ⟨u, c, hC⟩ := hC
    exact h.dropFile hf (of_decide_eq_false hC.1)
  newNode h hi := h.same (h.owned.newNode hi) (fun f hf _ => hf) fun _ _ => rfl
  renewed h hr := h.renewed hr
  formatted _ hC _ := by
    obtain ⟨u, c, hC⟩ := hC
    exact absurd hC.1 (by simp [Req.displaces])
  moved h _ hC := h.updateFile (of_decide_eq_false hC.1) (fun _ => rfl) fun _ => rfl
  renamed h _ hC := h.updateFile (of_decide_eq_false hC.1) (fun _ => rfl) fun _ => rfl
  dirs h := h.same (h.owned.congr rfl rfl le_rfl) (fun f hf _ => hf) fun _ _ => rfl

/-! ## Storing and reading -/

/-- **An imported file holds the blocks of its text.** -/
theorem Imported.holds (h : Owned w) {f : File} (hi : Imported w w' bs f) (hshort : f.blocks.length < 65536)
    (htext : ∀ b ∈ bs, 0 ∉ b) : Holds f.id f.name f.parentId bs w' := by
  refine ⟨h.imported hi hshort, htext, f, ?_, rfl, rfl, rfl, ?_⟩
  · rw [(Collection.insert_eq_some.1 hi.files).2]
    exact List.mem_append_right _ (List.mem_singleton_self f)
  · have hmap : bs.map upToNul = bs.map fun b => b := List.map_congr_left fun b hb => upToNul_eq (htext b hb)
    have hst : Stores w'.disk (bs.map upToNul) f.blocks := stores_of_sends hi.dist.length hi.dist.disk
    rwa [hmap, List.map_id'] at hst

/-- **An import of a text that returns 1** is one of a file with the blocks of the text. -/
theorem import_imported (h : Owned w) {route content : CStr} (htext : 0 ∉ content) :
    (filesystemCopyFileFromFS sort route (newFile name parentId)).Ok (worldSpec (Imports content))
      (fun r v => r = 1 → ∃ f bs, Imported w v bs f ∧ f.name = name ∧ f.parentId = parentId ∧ bs.flatten = content ∧
        Holds f.id name parentId bs v)
      (fun _ _ => True) w := by
  refine copyFileFromFS_ok (fun _ _ _ _ _ _ => trivial) h.fits (fun g hg => h.new_id hg)
    rfl (fun r w' hr _ h1 => absurd h1 hr) ?_
  intro w' c text bs f hc htext' hbs hname hparent _ hask hi _
  obtain ⟨u, c', -, -, hmet, -⟩ := hask.met
  have hcontent : text = content := Option.some.inj (htext'.symm.trans (hc.1 route rfl))
  have hflat : bs.flatten = content := by
    rw [getBlocksFromStr_flatten hbs, hcontent]
  have hblocks : ∀ b ∈ bs, 0 ∉ b := fun b hb h0 =>
    htext (hflat ▸ List.mem_flatten.2 ⟨b, hb, h0⟩)
  have hholds : Holds f.id f.name f.parentId bs w' := hi.holds h (hmet.2 f rfl) hblocks
  refine ⟨f, bs, hi, hname, hparent, hflat, ?_⟩
  rwa [show f.name = name from hname, show f.parentId = parentId from hparent] at hholds

/-- **An import of a text that returns 1 stores the text.** -/
theorem import_holds (h : Owned w) {route content : CStr} (htext : 0 ∉ content) :
    (filesystemCopyFileFromFS sort route (newFile name parentId)).Ok (worldSpec (Imports content))
      (fun r v => r = 1 → ∃ id bs, bs.flatten = content ∧ Holds id name parentId bs v)
      (fun _ _ => True) w := by
  refine (import_imported h htext).imp fun r v hv hr => ?_
  obtain ⟨f, bs, -, -, -, hflat, hholds⟩ := hv hr
  exact ⟨f.id, bs, hflat, hholds⟩

variable {up : CStr → Bool}

/-- The first copy on a node that answers gives the block. -/
theorem firstBlockGot_answering {cs : List FileBlock} {b : CStr} {Q : Option CStr → World → Prop} (hb : 0 ∉ b)
    (hcs : ∀ c ∈ cs, w.disk c.slot = b) (hQ : Q (if ∃ c ∈ cs, up c.nodeId = true then some b else none) w) :
    (firstBlockGot cs).Ok (worldSpec (Answering up)) Q E w := by
  induction cs with
  | nil => simpa [firstBlockGot] using hQ
  | cons c cs ih =>
    simp only [firstBlockGot, connectionsNodeGetBlock, Prog.ok_bind, ok_ask, Prog.ok_ret, serve, Prog.ok_pure]
    intro ch hch
    rw [hch c rfl]
    by_cases hup : up c.nodeId = true
    · have hdata : upToNul (w.disk c.slot) = b := by rw [hcs c List.mem_cons_self]; exact upToNul_eq hb
      simp only [hup, if_true, Option.map_some, hdata, Prog.ok_pure]
      rwa [if_pos ⟨c, List.mem_cons_self, hup⟩] at hQ
    · simp only [hup, Bool.false_eq_true, if_false, Option.map_none]
      refine ih (fun c' hc' => hcs c' (List.mem_cons_of_mem _ hc')) ?_
      simpa [hup] using hQ

/-- **The gathering loop** over the blocks of a file whose copies hold them: the
text, or nothing when a block is on no node that answers. -/
theorem getAllFileContent_ok {f : File} {Q : Option CStr → World → Prop} (hst : Stores w.disk bs f.blocks)
    (htext : ∀ b ∈ bs, 0 ∉ b)
    (hQ : Q (if ∀ cs ∈ f.blocks, ∃ c ∈ cs, up c.nodeId = true then some bs.flatten else none) w) :
    (filesystemGetAllFileContent f).Ok (worldSpec (Answering up)) Q E w := by
  simp only [filesystemGetAllFileContent, Prog.ok_bind, Prog.ok_pure]
  refine (Prog.ok_foldlM (K := fun done acc v => v = w ∧
    acc = if ∀ cs ∈ done, ∃ c ∈ cs, up c.nodeId = true then some (bs.take done.length) else none)
    f.blocks ?_ ⟨rfl, by simp⟩).imp ?_
  · intro done cs rest acc v hd hK
    obtain ⟨rfl, rfl⟩ := hK
    -- the block at hand is the one after the blocks gathered so far
    have hcs : f.blocks[done.length]? = some cs := by rw [← hd]; simp
    have hlt : done.length < bs.length := by
      rw [hst.length_eq, ← hd, List.length_append, List.length_cons]; omega
    have hb : bs[done.length]? = some bs[done.length] := List.getElem?_eq_getElem hlt
    have hnext : ∀ x ∈ done ++ [cs], x ∈ done ∨ x = cs := fun x hx => by simpa using hx
    by_cases hall : ∀ cs ∈ done, ∃ c ∈ cs, up c.nodeId = true
    · rw [if_pos hall]
      simp only [Prog.ok_bind]
      refine firstBlockGot_answering (htext _ (List.getElem_mem hlt)) (hst.get hb hcs) ?_
      by_cases hup : ∃ c ∈ cs, up c.nodeId = true
      · rw [if_pos hup, if_pos]
        · simp only [Prog.ok_pure, List.length_append, List.length_cons, List.length_nil, true_and]
          rw [List.take_add_one, hb]
          rfl
        · intro x hx
          rcases hnext x hx with hx | rfl
          · exact hall x hx
          · exact hup
      · rw [if_neg hup, if_neg]
        · exact ⟨rfl, rfl⟩
        · exact fun h => hup (h cs (by simp))
    · rw [if_neg hall, if_neg]
      · exact ⟨rfl, rfl⟩
      · exact fun h => hall fun x hx => h x (List.mem_append_left _ hx)
  · rintro acc v ⟨rfl, rfl⟩
    rw [← hst.length_eq, List.take_length]
    split at hQ
    · rename_i hall; rw [if_pos hall]; exact hQ
    · rename_i hall; rw [if_neg hall]; exact hQ

/-- The stored file, loaded again by its name, and gathered. -/
def readFile (name : CStr) (parentId : Oid) : FsProg (Option CStr) := do
  match ← filesystemGetFileByNameInDir name parentId with
  | some file => filesystemGetAllFileContent file
  | none => pure none

/-- **What is stored is what is read back.** In a store reached by operations, a
text is imported with result 1; then come operations that leave the file where it
is. Reading it ends, and with the nodes in `up` active and answering it gives the
text when every block has a recorded copy on one of them, and nothing otherwise. -/
theorem content_read_back (sort : NodeSort) (disk : Slot → CStr) (es fs : List (Operation × List Choice))
    (w₀ w₁ w₂ : World) (route name content : CStr) (parentId : Oid) (is : List Choice) (f : File)
    (htext : 0 ∉ content)
    (hes : Along (Operation.step sort) (Operation.Meets sort FewBlocks) (World.empty disk) es)
    (hrun : run (Operation.step sort) (World.empty disk) es = some w₀)
    (hreads : (filesystemCopyFileFromFS sort route (newFile name parentId)).Along handle (Imports content) w₀ is)
    (himport : (filesystemCopyFileFromFS sort route (newFile name parentId)).exec handle w₀ is = some (.ok 1, w₁))
    (hf : w₁.files.findIdx (name, parentId) = some f)
    (hfs : Along (Operation.step sort) (Operation.Meets sort (Spares f.id)) w₁ fs)
    (hlater : run (Operation.step sort) w₁ fs = some w₂) :
    ∃ g, w₂.files.findIdx (name, parentId) = some g ∧ g.id = f.id ∧
      (∀ answers : ℕ → Choice, ∃ n x, (readFile name parentId).exec handle w₂ ((List.range n).map answers) = some x) ∧
      ∀ up js o w₃, (readFile name parentId).Along handle (Answering up) w₂ js →
        (readFile name parentId).exec handle w₂ js = some (o, w₃) →
        o = .ok (if ∀ cs ∈ g.blocks, ∃ c ∈ cs, up c.nodeId = true then some content else none) := by
  have hO := kept_run kept_owned (owned_empty disk) hes hrun
  obtain ⟨id, bs, hflat, hH⟩ := (import_holds hO htext).exec_along hreads himport rfl
  obtain ⟨f', hf', hid, hname, hparent, -⟩ := hH.file
  -- the file found under the name is the imported one
  have hff : f = f' := by
    obtain ⟨hm, hi⟩ := Collection.findIdx_eq_some.1 hf
    exact Collection.eq_of_idx hm hf' (by rw [hi, hname, hparent])
  rw [hff, hid] at hfs
  have hH₂ := kept_run kept_holds hH hfs hlater
  obtain ⟨g, hg, hgid, hgname, hgparent, hst⟩ := hH₂.file
  have hfind : w₂.files.findIdx (name, parentId) = some g :=
    Collection.findIdx_eq_some.2 ⟨hg, by rw [hgname, hgparent]⟩
  refine ⟨g, hfind, by rw [hff, hid, hgid], fun answers => Prog.exec_total (fun _ _ _ => rfl) _ _ _, ?_⟩
  intro up js o w₃ hup hread
  have hok : (readFile name parentId).Ok (worldSpec (Answering up))
      (fun r _ => r = if ∀ cs ∈ g.blocks, ∃ c ∈ cs, up c.nodeId = true then some content else none)
      (fun _ _ => False) w₂ := by
    simp only [readFile, filesystemGetFileByNameInDir, mongoFileGetByNameInDir, Prog.ok_bind, ok_ask,
      Prog.ok_ret, serve, hfind]
    exact fun _ _ => getAllFileContent_ok hst hH₂.text (by rw [hflat])
  have hres := hok.exec_along hup hread
  cases o with
  | ok r => exact congrArg Except.ok hres
  | error e => exact hres.elim

/-- A fourth node, and a new copy of the first block on it. -/
def fourthCopy : List (Operation × List Choice) :=
  [(.addNode (cstr "n4") 2 true, List.replicate 2 .done),
    (.makeNewFileBlockCopy (cstr "a") .root 0, .done :: .bytes (cstr "hello") :: List.replicate 8 .done)]

/-- The text `hello` stored on three nodes and copied to a fourth one. -/
theorem content_read_back_hello : ∃ w₂ g, w₂.files.findIdx (cstr "a", .root) = some g ∧
    (g.blocks.map List.length) = [4] ∧
    ∀ up js o w₃, (readFile (cstr "a") .root).Along handle (Answering up) w₂ js →
      (readFile (cstr "a") .root).exec handle w₂ js = some (o, w₃) →
      o = .ok (if ∀ cs ∈ g.blocks, ∃ c ∈ cs, up c.nodeId = true then some (cstr "hello") else none) := by
  set copyHello := filesystemCopyFileFromFS insertionSort (cstr "/tmp/a") (newFile (cstr "a") .root)
  have hall : ∃ w₀ ∈ run (Operation.step insertionSort) (World.empty fun _ => []) threeNodes,
      copyHello.Along handle (Imports (cstr "hello")) w₀ importHello ∧
      ∃ x ∈ copyHello.exec handle w₀ importHello, x.1.toOption = some 1 ∧
      ∃ f ∈ x.2.files.findIdx (cstr "a", .root),
        Along (Operation.step insertionSort) (Operation.Meets insertionSort (Spares f.id)) x.2 fourthCopy ∧
      ∃ w₂ ∈ run (Operation.step insertionSort) x.2 fourthCopy,
      ∃ g ∈ w₂.files.findIdx (cstr "a", .root), g.blocks.map List.length = [4] := by decide +kernel
  obtain ⟨w₀, h₀, hreads, ⟨r, w₁⟩, h₁, hr, f, hf, hfs, w₂, h₂, g, hg, hlen⟩ := hall
  have himport : copyHello.exec handle w₀ importHello = some (.ok 1, w₁) := by
    cases r with
    | ok r => cases hr; exact h₁
    | error e => cases hr
  obtain ⟨g', hg', -, -, hread⟩ := content_read_back insertionSort (fun _ => []) threeNodes fourthCopy
    w₀ w₁ w₂ (cstr "/tmp/a") (cstr "a") (cstr "hello") .root importHello f (by decide) (by decide +kernel)
    h₀ hreads himport hf hfs h₂
  cases hg.symm.trans hg'
  exact ⟨w₂, g, hg, hlen, hread⟩

end Mdfs.FileSystem
