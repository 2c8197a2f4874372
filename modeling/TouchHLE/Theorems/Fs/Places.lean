import TouchHLE.Theorems.Fs.Rename

/-! # Places in the guest tree

Below the three directories of the sandbox everything is writeable and lies at the same place below the sandbox on the host,
and nothing else is writeable. Every call keeps it so, and asks the host only for changes in the sandbox. -/

namespace TouchHLE.Fs
open Lib List

def InSandbox (setup : Setup) (p : List Name) : Prop :=
  setup.readOnlyMode = false ∧ ∃ dir ∈ directories, ∃ rest, p = home ++ dir :: rest

/-- What the label of a node at a place of the guest tree may be. -/
inductive Place (setup : Setup) : List Name → FileNode ⊕ Option HostPath → Prop where
  | sandboxFile {dir : Name} {rest : List Name} : setup.readOnlyMode = false → dir ∈ directories → rest ≠ [] →
      Place setup (home ++ dir :: rest) (.inl ⟨.path (setup.sandbox ++ dir :: rest), true⟩)
  | sandboxDir {dir : Name} {rest : List Name} : setup.readOnlyMode = false → dir ∈ directories →
      Place setup (home ++ dir :: rest) (.inr (some (setup.sandbox ++ dir :: rest)))
  | bundleFile {path : HostPath} {entries : HostDir} {rest : List Name} : setup.appBundle = .hostDirectory path entries →
      ¬InSandbox setup (home ++ setup.bundleDirName :: rest) →
      Place setup (home ++ setup.bundleDirName :: rest) (.inl ⟨.path (path ++ rest), false⟩)
  | archiveFile {p : List Name} {index : Nat} : ¬InSandbox setup p → Place setup p (.inl ⟨.ipaFileRef index, false⟩)
  | resourceFile {p : List Name} {name : Name} : ¬InSandbox setup p → Place setup p (.inl ⟨.resourceFilePath name, false⟩)
  | readOnlyDir {p : List Name} : ¬InSandbox setup p → Place setup p (.inr none)

def Placed (setup : Setup) (self : Fs) : Prop := ∀ p l, self.root.labelAt p = some l → Place setup p l

def Confined (setup : Setup) (path : HostPath) : Prop :=
  ∃ dir ∈ directories, ∃ rest, rest ≠ [] ∧ (∀ n ∈ rest, ProperName n) ∧ path = setup.sandbox ++ dir :: rest

variable {setup : Setup} {self fs : Fs} {path source target : GuestPath} {host : HostOp → Bool} {ops : List HostOp}
variable {p parent : List Name} {node : FsNode} {hostPath : HostPath} {name : Name}
variable {children : List (Name × FsNode)} {b : Option HostPath} {options : GuestOpenOptions}

section
variable (h : Placed setup self)
include h

theorem Placed.get (hget : self.root.get p = some node) :
    Place setup p node.label := h p node.label (by rw [Tree.labelAt, hget]; rfl)

omit h in
theorem Place.writeableDir (h : Place setup p (.inr (some hostPath))) : setup.readOnlyMode = false ∧
      ∃ dir ∈ directories, ∃ rest, p = home ++ dir :: rest ∧ hostPath = setup.sandbox ++ dir :: rest := by
  cases h with
  | sandboxDir hmd hdir => exact ⟨hmd, _, hdir, _, rfl, rfl⟩

omit h in
theorem Place.writeableFile {location} (h : Place setup p (.inl ⟨location, true⟩)) :
    ∃ dir ∈ directories, ∃ rest, rest ≠ [] ∧ p = home ++ dir :: rest ∧ location = .path (setup.sandbox ++ dir :: rest) := by
  cases h with
  | sandboxFile _ hdir hrs => exact ⟨_, hdir, _, hrs, rfl, rfl⟩

theorem Placed.confined_file (hp : ∀ n ∈ p, ProperName n)
    (hget : self.root.get p = some (FsNode.file (.path hostPath) true)) : Confined setup hostPath := by
  obtain ⟨dir, hdir, rest, hrs, rfl, heq⟩ := (h.get hget).writeableFile
  cases heq
  exact ⟨dir, hdir, rest, hrs, fun n hn => hp n (by simp [hn]), rfl⟩

theorem Placed.child (hpp : ∀ n ∈ parent ++ [name], ProperName n)
    (hget : self.root.get parent = some (FsNode.directory children (some hostPath))) :
    Confined setup (hostJoin hostPath name) ∧ Place setup (parent ++ [name]) (.inl ⟨.path (hostJoin hostPath name), true⟩) ∧
      Place setup (parent ++ [name]) (.inr (some (hostJoin hostPath name))) := by
  obtain ⟨hmd, dir, hdir, rest, rfl, rfl⟩ := (h.get hget).writeableDir
  rw [hostJoin_proper (hpp name (by simp)), append_assoc, append_assoc]
  refine ⟨⟨dir, hdir, rest ++ [name], by simp, fun n hn => hpp n ?_, rfl⟩, .sandboxFile hmd hdir (by simp),
    .sandboxDir hmd hdir⟩
  exact mem_append_right home (mem_cons_of_mem dir hn)

theorem Placed.confined_child {b}
    {grandchildren} (hpp : ∀ n ∈ parent ++ [name], ProperName n)
    (hget : self.root.get parent = some (FsNode.directory children (some b)))
    (hch : Tree.findChild name children = some (.directory grandchildren (some hostPath))) :
    Confined setup hostPath := by
  obtain ⟨-, dir, hdir, rest, rfl, -⟩ := (h.get hget).writeableDir
  obtain ⟨-, dir', hdir', rest', heq, rfl⟩ := (h.get ((Tree.get_child hget name).trans hch)).writeableDir
  cases heq
  refine ⟨dir, hdir, rest ++ [name], by simp, fun n hn => hpp n ?_, rfl⟩
  exact mem_append_right home (mem_cons_of_mem dir hn)

theorem Placed.insert (hget : self.root.get parent = some (.node b children))
    (hnod : Place setup (parent ++ [name]) node.label) (hlef : ∀ k p, node.get (k :: p) = none) :
    Placed setup (self.insert parent name node) := by
  intro p l hl
  rw [Fs.insert, Tree.labelAt_graft hget] at hl
  split at hl
  · rename_i hpre
    obtain ⟨rest, rfl⟩ := hpre
    have hdr : (parent ++ [name] ++ rest).drop (parent.length + 1) = rest := by simp
    rw [hdr] at hl
    cases rest with
    | nil =>
      cases hl
      simpa using hnod
    | cons k rest =>
      rw [Tree.labelAt, hlef] at hl
      cases hl
  · exact h p l hl

theorem Placed.removeChild (hget : self.root.get parent = some (.node b children)) :
    Placed setup (self.removeChild parent name) := by
  intro p l hl
  rw [Fs.removeChild, Tree.labelAt_prune hget] at hl
  split at hl
  · cases hl
  · exact h p l hl

def Sound (setup : Setup) (fs : Fs) (ops : List HostOp) : Prop :=
  Placed setup fs ∧ ∀ op ∈ ops, ∀ p ∈ op.touches, Confined setup p

omit h in
theorem Sound.nil (h : Placed setup fs) : Sound setup fs [] := ⟨h, by simp⟩

omit h in
theorem Sound.one (h : Placed setup fs) {op} (hop : ∀ p ∈ op.touches, Confined setup p) : Sound setup fs [op] :=
  ⟨h, by simpa using hop⟩

omit h in
theorem Sound.append (h : Sound setup self ops) {new} (hnew : Sound setup fs new) :
    Sound setup fs (ops ++ new) := by
  refine ⟨hnew.1, fun op hop => ?_⟩
  rcases mem_append.mp hop with hop | hop
  · exact h.2 op hop
  · exact hnew.2 op hop

omit h in
theorem touches_openFile {p}
    (hp : p ∈ (HostOp.openFile hostPath options).touches) : p = hostPath := by
  rw [HostOp.touches] at hp
  split at hp
  · exact mem_singleton.mp hp
  · cases hp

/-- What opening a file gives: the tree is sound, and a file of the host that is opened has been asked for. -/
def OpenSound (setup : Setup) (options : GuestOpenOptions) (out : Outcome Opened) : Prop :=
  Sound setup out.2.1 out.2.2 ∧ ∀ hostPath, out.1 = .ok (.file hostPath) → options.write = true → Confined setup hostPath

theorem openExisting_sound (hp : ∀ n ∈ p, ProperName n)
    (hget : self.root.get p = some node) (hos : Asserted options) :
    Ensures (self.openExisting host options node) (OpenSound setup options) := by
  cases node with
  | node b children => exact .ite (fun _ => ⟨.nil h, nofun⟩) fun _ => ⟨.nil h, nofun⟩
  | leaf f =>
    obtain ⟨location, writeable⟩ := f
    refine .ite (fun _ => ⟨.nil h, nofun⟩) fun hall => ?_
    cases location with
    | ipaFileRef index | resourceFilePath name => exact .ite (fun _ => trivial) fun _ => ⟨.nil h, nofun⟩
    | path hostPath =>
      refine (handleOpenErr_spec _ _ _ _).imp ?_
      rintro _ ⟨-, rfl⟩
      cases writeable with
      | true =>
        have hcf := h.confined_file hp hget
        refine ⟨.one h fun q hq => ?_, fun q hq _ => ?_⟩
        · rw [touches_openFile hq]
          exact hcf
        · cases hq
          exact hcf
      | false =>
        -- A file that is not writeable is only opened to be read.
        have hrd : options.write = false ∧ options.append = false ∧ options.truncate = false := by
          simp only [Bool.not_false, Bool.true_and, Bool.not_eq_true, Bool.or_eq_false_iff] at hall
          simp only [Asserted, hall.1, hall.2, Bool.or_self, Bool.not_false, Bool.and_true, Bool.or_eq_false_iff] at hos
          exact ⟨hall.2, hall.1, hos.1⟩
        refine ⟨.one h fun q hq => ?_, fun q _ hwi => ?_⟩
        · simp [HostOp.touches, hrd] at hq
        · exact absurd hwi (by simp [hrd.1])

omit h in
theorem FileAtPath.confined (hfi : FileAtPath self path p hostPath)
    (h : Placed setup self) : Confined setup hostPath := h.confined_file hfi.1.proper hfi.2

omit h in
theorem NewFile.sound (hnew : NewFile self path parent name hostPath)
    (h : Placed setup self) (options : GuestOpenOptions) : Confined setup hostPath ∧
      Sound setup (self.insert parent name (.file (.path hostPath) true)) [.openFile hostPath options] := by
  obtain ⟨hres, children, dir, hget, -, rfl⟩ := hnew
  obtain ⟨hcf, hfi, -⟩ := h.child hres.proper hget
  exact ⟨hcf, .one (h.insert hget hfi fun k p => rfl) fun q hq => touches_openFile hq ▸ hcf⟩

theorem openWithOptions_sound (host : HostOp → Bool) (path : GuestPath) (options : GuestOpenOptions) :
    Ensures (self.openWithOptions host path options) (OpenSound setup options) := by
  refine (openWithOptions_spec self host path options).imp fun out hout => ?_
  cases hout with
  | refused e => exact ⟨.nil h, nofun⟩
  | existing har hres hget hoe => exact (openExisting_sound h hres.proper hget har).ok hoe
  | created hnew =>
    obtain ⟨hcf, hsn⟩ := hnew.sound h options
    refine ⟨hsn, fun q hq _ => ?_⟩
    cases hq
    exact hcf

theorem write_sound (host : HostOp → Bool) (path : GuestPath) :
    Ensures (self.write host path) fun out => Sound setup out.2.1 out.2.2 := by
  refine (openWithOptions_sound h host path writeOptions).bind ?_
  rintro ⟨r, fs, ops⟩ ⟨hsn, hfi⟩
  rcases r with e | (hostPath | index | name | _)
  · exact hsn
  · refine hsn.append (.one hsn.1 fun q hq => ?_)
    rw [mem_singleton.mp hq]
    exact hfi _ rfl rfl
  · trivial
  · trivial
  · trivial

omit h in
theorem Prunes.placed (hpu : Prunes self fs p) (h : Placed setup self) : Placed setup fs := by
  obtain ⟨-, parent, name, children, dir, hget, rfl⟩ := hpu
  exact h.removeChild hget

theorem rename_sound (host : HostOp → Bool) (source target : GuestPath) :
    Ensures (self.rename host source target) fun out => Sound setup out.2.1 out.2.2 := by
  have htch : ∀ {s t : HostPath}, Confined setup s → Confined setup t →
      ∀ q ∈ (HostOp.rename s t).touches, Confined setup q := by
    intro s t hs ht
    simp only [HostOp.touches, mem_cons, not_mem_nil, or_false, forall_eq_or_imp, forall_eq]
    exact ⟨hs, ht⟩
  refine (rename_spec self host source target).imp fun out hout => ?_
  cases hout with
  | refused e => exact .nil h
  | failed hsc hto => exact .one h (htch (hsc.confined h) (hto.confined h))
  | renamed hsc hto _ hpu => exact .one (hpu.placed h) (htch (hsc.confined h) (hto.confined h))
  | created hsc hnew _ hen =>
    obtain ⟨hcf, hsn⟩ := hnew.sound h writeOptions
    rcases hen with ⟨e, rfl, -⟩ | ⟨fs, rfl, hpu⟩
    · exact hsn.append (.one hsn.1 (htch (hsc.confined h) hcf))
    · exact hsn.append (.one (hpu.placed hsn.1) (htch (hsc.confined h) hcf))

theorem remove_sound (host : HostOp → Bool) (path : GuestPath) :
    Ensures (self.remove host path) fun out => Sound setup out.2.1 out.2.2 := by
  refine (remove_spec self host path).imp fun out hout => ?_
  cases hout with
  | refused e => exact .nil h
  | file hres hget hch =>
    refine .one (h.removeChild hget) fun q hq => ?_
    rw [mem_singleton.mp hq]
    exact h.confined_file hres.proper ((Tree.get_child hget _).trans hch)
  | directory hres hget hch =>
    refine .one (h.removeChild hget) fun q hq => ?_
    rw [mem_singleton.mp hq]
    exact h.confined_child hres.proper hget hch

theorem createDir_sound (host : HostOp → Bool) (path : GuestPath) :
    Ensures (self.createDir host path) fun out => Sound setup out.2.1 out.2.2 := by
  refine (createDir_spec self host path).imp fun out hout => ?_
  cases hout with
  | refused e => exact .nil h
  | created hres hget =>
    obtain ⟨hcf, -, hdir⟩ := h.child hres.proper hget
    refine .one (h.insert hget hdir fun k p => rfl) fun q hq => ?_
    rw [mem_singleton.mp hq]
    exact hcf

theorem createDirAll_sound (host : HostOp → Bool) (path : GuestPath) :
    Ensures (self.createDirAll host path) fun out => Sound setup out.2.1 out.2.2 := by
  refine .ite (fun _ => Ensures.next fun components _ => ?_) fun _ => trivial
  refine createDirs_ensures (fun self ops path hsn => ?_) (.nil h)
  exact (createDir_sound hsn.1 host path).imp fun out hout => hsn.append hout

/-- One call keeps the nodes where they belong, and asks the host only for confined changes. -/
theorem call_sound (c : Call × (HostOp → Bool)) : Ensures (self.call c) fun p => Sound setup p.2 p.1.ops := by
  obtain ⟨c, host⟩ := c
  cases c with
  | openWithOptions path options => exact (openWithOptions_sound h host path options).bind fun _ hout => hout.1
  | write path => exact (write_sound h host path).bind fun _ hout => hout
  | rename source target => exact (rename_sound h host source target).bind fun _ hout => hout
  | remove path => exact (remove_sound h host path).bind fun _ hout => hout
  | createDir path => exact (createDir_sound h host path).bind fun _ hout => hout
  | createDirAll path => exact (createDirAll_sound h host path).bind fun _ hout => hout
  | changeWorkingDirectory newPath =>
    refine .bind (P := fun p : Bool × Fs => p.2.root = self.root) (Ensures.next fun resolved _ => ?_) fun p hp => ?_
    · split <;> rfl
    · refine .nil fun q l hl => h q l ?_
      rw [← hp]
      exact hl

end
end TouchHLE.Fs
