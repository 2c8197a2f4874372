import TouchHLE.Theorems.Fs.Paths

/-! # What calls do to the guest tree

A call that returns an error leaves the filesystem as it is, apart from `rename`. One that succeeds grafts a node without
children, or prunes one, at the place that its path resolves to. -/

namespace TouchHLE.Fs
open Lib List Tree FsNode

variable {self fs : Fs} {host : HostOp → Bool} {path : GuestPath} {ops : List HostOp}
variable {p parent : List Name} {name : Name} {children : List (Name × FsNode)} {dir : Option HostPath} {node : FsNode}

def Resolves (self : Fs) (path : GuestPath) (p : List Name) : Prop := resolvePath path (some self.workingDirectory) = .ok p

theorem Resolves.unique {q} (h : Resolves self path p) (h' : Resolves self path q) : p = q :=
  Except.ok.inj (h.symm.trans h')

theorem Resolves.proper (h : Resolves self path p) : ∀ n ∈ p, ProperName n := resolvePath_proper h

theorem lookupNode_of_resolves (h : Resolves self path p) : self.lookupNode path = .ok (self.root.get p) := by
  rw [lookupNode, h]
  rfl

theorem lookupNode_spec (self : Fs) (path : GuestPath) :
    Ensures (self.lookupNode path) fun node => ∃ p, Resolves self path p ∧ self.root.get p = node :=
  .next fun p hp => ⟨p, hp, rfl⟩

theorem lookupParentNode_spec (self : Fs) (path : GuestPath) : Ensures (self.lookupParentNode path) fun found =>
    ∀ parent node name, found = some (parent, node, name) →
      Resolves self path (parent ++ [name]) ∧ self.root.get parent = some node := by
  refine .next fun p hp => ?_
  cases hls : p.getLast? with
  | none => exact nofun
  | some last =>
    intro parent node name hfd
    obtain ⟨parentNode, hget, heq⟩ := Option.map_eq_some_iff.mp hfd
    cases heq
    rw [dropLast_append_getLast? last hls]
    exact ⟨hp, hget⟩

theorem lookupParentNode_of_resolves (h : Resolves self path (parent ++ [name])) :
    self.lookupParentNode path = .ok ((self.root.get parent).map fun node => (parent, node, name)) := by
  rw [lookupParentNode, h]
  simp

structure Adds (before after : Fs) (p : List Name) (l : FileNode ⊕ Option HostPath) : Prop where
  new : before.root.labelAt p = none
  labels : ∀ q, after.root.labelAt q = if q = p then some l else before.root.labelAt q
  directory : after.workingDirectory = before.workingDirectory

structure Deletes (before after : Fs) (p : List Name) : Prop where
  childless : ∀ name, before.root.labelAt (p ++ [name]) = none
  labels : ∀ q, after.root.labelAt q = if q = p then none else before.root.labelAt q
  directory : after.workingDirectory = before.workingDirectory

theorem adds_insert
    (hget : self.root.get parent = some (directory children dir)) (hno : findChild name children = none)
    (hnod : ∀ k p, node.labelAt (k :: p) = none) :
    Adds self (self.insert parent name node) (parent ++ [name]) node.label := by
  have hbw : ∀ r, self.root.get (parent ++ [name] ++ r) = none := by
    intro r
    rw [get_append, get_child hget, hno]
    rfl
  refine ⟨?_, fun q => ?_, rfl⟩
  · rw [labelAt, ← append_nil (parent ++ [name]), hbw]
    rfl
  · rw [insert, labelAt_graft hget]
    split
    · rename_i hpre
      obtain ⟨r, rfl⟩ := hpre
      have hdr : (parent ++ [name] ++ r).drop (parent.length + 1) = r := by
        rw [← length_singleton, ← length_append, drop_left]
      rw [hdr]
      cases r with
      | nil => simp [labelAt_nil]
      | cons k r =>
        rw [hnod, if_neg (by simp), labelAt, hbw]
        rfl
    · rename_i hpre
      rw [if_neg]
      rintro rfl
      exact hpre (prefix_refl _)

theorem deletes_removeChild (hget : self.root.get parent = some (directory children dir))
    (hso : findChild name children = some node) (hnod : ∀ k p, node.labelAt (k :: p) = none) :
    Deletes self (self.removeChild parent name) (parent ++ [name]) := by
  have hbw : ∀ k r, self.root.labelAt (parent ++ [name] ++ k :: r) = none := by
    intro k r
    rw [labelAt, get_append, get_child hget, hso]
    exact hnod k r
  refine ⟨fun k => hbw k [], fun q => ?_, rfl⟩
  rw [removeChild, labelAt_prune hget]
  split
  · rename_i hpre
    obtain ⟨r, rfl⟩ := hpre
    cases r with
    | nil => simp
    | cons k r => rw [if_neg (by simp), hbw]
  · rename_i hpre
    rw [if_neg]
    rintro rfl
    exact hpre (prefix_refl _)

theorem labelAt_file (location : FileLocation) (writeable : Bool) (k : Name) (p : List Name) :
    (file location writeable).labelAt (k :: p) = none := rfl

theorem labelAt_emptyDirectory (dir : Option HostPath) (k : Name) (p : List Name) :
    (directory [] dir).labelAt (k :: p) = none := rfl

theorem handleOpenErr_spec {α : Type} (host : HostOp → Bool) (op : HostOp) (result : Except FsError α) (fs : Fs) :
    Ensures (handleOpenErr host op result fs) fun out => host op = true ∧ out = (result, fs, [op]) :=
  .ite (fun hop => ⟨hop, rfl⟩) fun _ => trivial

theorem openExisting_same (self : Fs) (host : HostOp → Bool) (options : GuestOpenOptions) (node : FsNode) :
    Ensures (self.openExisting host options node) fun out => out.2.1 = self := by
  cases node with
  | node b children => exact .ite (fun _ => rfl) fun _ => rfl
  | leaf f =>
    obtain ⟨location, writeable⟩ := f
    refine .ite (fun _ => rfl) fun _ => ?_
    cases location with
    | path hostPath => exact (handleOpenErr_spec host _ _ self).imp fun out hout => hout.2 ▸ rfl
    | ipaFileRef index | resourceFilePath name => exact .ite (fun _ => trivial) fun _ => rfl

/-- A new file of the host in a writeable directory, for a path that leads to nothing so far. -/
structure NewFile (fs : Fs) (path : GuestPath) (parent : List Name) (name : Name) (hostPath : HostPath) : Prop where
  resolves : Resolves fs path (parent ++ [name])
  inDirectory : ∃ children dir, fs.root.get parent = some (directory children (some dir)) ∧
    findChild name children = none ∧ hostPath = hostJoin dir name

/-- `assert!((!truncate && !create) || write || append)` -/
def Asserted (options : GuestOpenOptions) : Prop :=
  ((options.truncate || options.create) && !(options.write || options.append)) = false

theorem openWithOptions_created {hostPath} {options}
    (har : Asserted options) (hnew : NewFile self path parent name hostPath) (hct : options.create = true) :
    self.openWithOptions host path options = handleOpenErr host (.openFile hostPath options) (.ok (.file hostPath))
        (self.insert parent name (.file (.path hostPath) true)) := by
  obtain ⟨hres, children, dir, hprn, hch, rfl⟩ := hnew
  have hsls : '/' ∉ name := (hres.proper name (by simp)).2.2.2
  rw [openWithOptions, har, if_neg Bool.false_ne_true, lookupParentNode_of_resolves hres, hprn]
  simp [hch, hct, hsls]

inductive OpenCases (self : Fs) (host : HostOp → Bool) (path : GuestPath) (options : GuestOpenOptions) :
    Outcome Opened → Prop where
  | refused (e : FsError) : OpenCases self host path options (.error e, self, [])
  | existing {p : List Name} {node : FsNode} {out : Outcome Opened} (asserted : Asserted options) (resolves : Resolves self path p)
      (get : self.root.get p = some node) (opened : self.openExisting host options node = .ok out) :
      OpenCases self host path options out
  | created {parent : List Name} {name : Name} {hostPath : HostPath} (new : NewFile self path parent name hostPath)
      (create : options.create = true) (granted : host (.openFile hostPath options) = true) :
      OpenCases self host path options (.ok (.file hostPath), self.insert parent name (.file (.path hostPath) true),
        [.openFile hostPath options])

theorem openWithOptions_spec (self : Fs) (host : HostOp → Bool) (path : GuestPath) (options : GuestOpenOptions) :
    Ensures (self.openWithOptions host path options) (OpenCases self host path options) := by
  refine .ite (fun _ => trivial) fun hos => (lookupParentNode_spec self path).bind ?_
  rintro (_ | ⟨parent, node, name⟩) hfd
  · exact .refused _
  · obtain ⟨hres, hget⟩ := hfd _ _ _ rfl
    cases node with
    | leaf f => exact .refused _
    | node dir children =>
      dsimp only
      cases hch : findChild name children with
      | some node =>
        refine .ite (fun _ => .refused _) fun _ => Ensures.intro fun out hout => ?_
        exact .existing (Bool.eq_false_iff.mpr hos) hres ((get_child hget _).trans hch) hout
      | none =>
        refine .ite (fun _ => .refused _) fun hct => ?_
        cases dir with
        | none => exact .refused _
        | some dir =>
          refine .ite (fun _ => trivial) fun _ => (handleOpenErr_spec _ _ _ _).imp ?_
          rintro _ ⟨hho, rfl⟩
          exact .created ⟨hres, _, _, hget, hch, rfl⟩ (by simpa using hct) hho

inductive RemoveCases (self : Fs) (path : GuestPath) : Outcome Unit → Prop where
  | refused (e : FsError) : RemoveCases self path (.error e, self, [])
  | file {parent : List Name} {name : Name} {children : List (Name × FsNode)} {dir hostPath : HostPath}
      (resolves : Resolves self path (parent ++ [name]))
      (get : self.root.get parent = some (directory children (some dir)))
      (child : findChild name children = some (.file (.path hostPath) true)) :
      RemoveCases self path (.ok (), self.removeChild parent name, [.removeFile hostPath])
  | directory {parent : List Name} {name : Name} {children : List (Name × FsNode)} {dir hostPath : HostPath}
      (resolves : Resolves self path (parent ++ [name]))
      (get : self.root.get parent = some (directory children (some dir)))
      (child : findChild name children = some (.directory [] (some hostPath))) :
      RemoveCases self path (.ok (), self.removeChild parent name, [.removeDir hostPath])

theorem remove_spec (self : Fs) (host : HostOp → Bool) (path : GuestPath) :
    Ensures (self.remove host path) (RemoveCases self path) := by
  refine (lookupParentNode_spec self path).bind ?_
  rintro (_ | ⟨parent, node, name⟩) hfd
  · exact .refused _
  obtain ⟨hres, hget⟩ := hfd _ _ _ rfl
  rcases node with f | ⟨_ | dir, children⟩
  · exact .refused _
  · exact .refused _
  dsimp only
  rcases hch : findChild name children with _ | ⟨⟨location, writeable⟩ | ⟨dir', children'⟩⟩
  · exact .refused _
  · refine .ite (fun _ => .refused _) fun hwri => ?_
    obtain rfl : writeable = true := by simpa using hwri
    cases location with
    | path hostPath => exact (handleOpenErr_spec _ _ _ _).imp fun out hout => hout.2 ▸ .file hres hget hch
    | ipaFileRef index | resourceFilePath name => trivial
  · refine .ite (fun _ => .refused _) fun hem => ?_
    obtain rfl : children' = [] := of_not_not hem
    cases dir' with
    | none => exact .refused _
    | some hostPath => exact (handleOpenErr_spec _ _ _ _).imp fun out hout => hout.2 ▸ .directory hres hget hch

inductive CreateDirCases (self : Fs) (path : GuestPath) : Outcome Unit → Prop where
  | refused (e : FsError) : CreateDirCases self path (.error e, self, [])
  | created {parent : List Name} {name : Name} {children : List (Name × FsNode)} {dir : HostPath}
      (resolves : Resolves self path (parent ++ [name]))
      (get : self.root.get parent = some (directory children (some dir)))
      (absent : findChild name children = none) :
      CreateDirCases self path (.ok (), self.insert parent name (.directory [] (some (hostJoin dir name))),
        [.createDir (hostJoin dir name)])

theorem createDir_spec (self : Fs) (host : HostOp → Bool) (path : GuestPath) :
    Ensures (self.createDir host path) (CreateDirCases self path) := by
  refine (lookupParentNode_spec self path).bind ?_
  rintro (_ | ⟨parent, node, name⟩) hfd
  · exact .refused _
  obtain ⟨hres, hget⟩ := hfd _ _ _ rfl
  rcases node with f | ⟨dir, children⟩
  · exact .refused _
  dsimp only
  cases hch : findChild name children with
  | some node => exact .refused _
  | none =>
    cases dir with
    | none => exact .refused _
    | some dir =>
      refine .ite (fun _ => trivial) fun _ => (handleOpenErr_spec _ _ _ _).imp fun out hout => ?_
      exact hout.2 ▸ .created hres hget hch

theorem createDirs_ensures {P : Fs → List HostOp → Prop}
    (hst : ∀ self ops path, P self ops → Ensures (self.createDir host path) fun out => P out.2.1 (ops ++ out.2.2))
    {done rest} (h : P self ops) : Ensures (createDirs host done rest self ops) fun out => P out.2.1 out.2.2 := by
  induction rest generalizing done self ops with
  | nil => exact h
  | cons component rest ih =>
    refine (hst self ops _ h).bind ?_
    rintro ⟨r, fs, new⟩ hnew
    split
    · rename_i heq
      cases heq
      exact ih hnew
    · rename_i heq
      cases heq
      exact ih hnew
    · rename_i heq
      cases heq
      exact hnew

/-- Opening a file: an error and an existing node leave the tree as it is, otherwise exactly one file is new. -/
def OpenEffect (self fs : Fs) (path : GuestPath) : Except FsError Opened → Prop
  | .error _ => fs = self
  | .ok _ => ∃ p, Resolves self path p ∧
      ((∃ node, self.root.get p = some node ∧ fs = self) ∨ ∃ hostPath, Adds self fs p (.inl ⟨.path hostPath, true⟩))

/-- Removal: an error leaves the tree as it is, otherwise exactly one file or empty directory is gone. -/
def RemoveEffect (self fs : Fs) (path : GuestPath) : Except FsError Unit → Prop
  | .error _ => fs = self
  | .ok _ => ∃ p node, Resolves self path p ∧ self.root.get p = some node ∧
      ((∃ location, node = file location true) ∨ ∃ dir, node = directory [] dir) ∧ Deletes self fs p

/-- Creating a directory: an error leaves the tree as it is, otherwise exactly one empty directory is new. -/
def CreateDirEffect (self fs : Fs) (path : GuestPath) : Except FsError Unit → Prop
  | .error _ => fs = self
  | .ok _ => ∃ p hostPath, Resolves self path p ∧ Adds self fs p (.inr (some hostPath))

/-- Each of the calls changes the tree at the place that its path resolves to and nowhere else, and does not change it at
    all if it fails. -/
theorem calls_change_one_node (self : Fs) (host : HostOp → Bool) (path : GuestPath) :
    (∀ options r fs ops, self.openWithOptions host path options = .ok (r, fs, ops) → OpenEffect self fs path r) ∧
      (∀ r fs ops, self.remove host path = .ok (r, fs, ops) → RemoveEffect self fs path r) ∧
      ∀ r fs ops, self.createDir host path = .ok (r, fs, ops) → CreateDirEffect self fs path r := by
  refine ⟨fun options r fs ops h => ?_, fun r fs ops h => ?_, fun r fs ops h => ?_⟩
  · cases (openWithOptions_spec self host path options).ok h with
    | refused => rfl
    | existing _ hres hget hopened =>
      obtain rfl : fs = self := (openExisting_same self host options _).ok hopened
      cases r with
      | error e => rfl
      | ok o => exact ⟨_, hres, .inl ⟨_, hget, rfl⟩⟩
    | created hnew =>
      obtain ⟨hres, children, dir, hget, hnone, -⟩ := hnew
      exact ⟨_, hres, .inr ⟨_, adds_insert hget hnone (labelAt_file _ _)⟩⟩
  · cases (remove_spec self host path).ok h with
    | refused => rfl
    | file hres hget hchild =>
      exact ⟨_, _, hres, (get_child hget _).trans hchild, .inl ⟨_, rfl⟩, deletes_removeChild hget hchild (labelAt_file _ _)⟩
    | directory hres hget hchild =>
      exact ⟨_, _, hres, (get_child hget _).trans hchild, .inr ⟨_, rfl⟩,
        deletes_removeChild hget hchild (labelAt_emptyDirectory _)⟩
  · cases (createDir_spec self host path).ok h with
    | refused => rfl
    | created hres hget habsent => exact ⟨_, _, hres, adds_insert hget habsent (labelAt_emptyDirectory _)⟩

/-- A file is created in an empty directory. -/
theorem calls_change_one_node_created : ∃ fs fs', fs.openWithOptions (fun _ => true) ['/', 'a'] writeOptions =
        .ok (.ok (.file [['h'], ['a']]), fs', [.openFile [['h'], ['a']] writeOptions]) ∧
      OpenEffect fs fs' ['/', 'a'] (.ok (.file [['h'], ['a']])) :=
  ⟨⟨.directory [] (some [['h']]), ['/'], ['/']⟩, _, rfl,
    (calls_change_one_node _ (fun _ => true) ['/', 'a']).1 writeOptions _ _ _ rfl⟩

end TouchHLE.Fs
