import TouchHLE.Theorems.Fs.Resolution

/-! # Making the directories of a path

`create_dir_all` takes an existing node for a directory, so a file at the end of the path goes unnoticed. -/

namespace TouchHLE.Fs
open Lib List

variable {self fs : Fs} {host : HostOp → Bool} {path : GuestPath} {ops : List HostOp} {node : FsNode} {f : FileNode}
variable {components done rest parent p : List Name} {name : Name}

section
variable (h : ∀ n ∈ parent ++ [name], ProperName n)
include h

theorem resolves_spell : Resolves self (spell (parent ++ [name])) (parent ++ [name]) := by
  have hspl : spell (parent ++ [name]) = absolute (parent ++ [name]) := (if_neg (by simp)).symm
  rw [Resolves, hspl, resolvePath_absolute (head_absolute _), foldl_absolute h]

theorem createDir_existing (hget : self.root.get (parent ++ [name]) = some node) :
    self.createDir host (spell (parent ++ [name])) = .ok (.error .alreadyExist, self, []) := by
  obtain ⟨b, children, hprn, hch⟩ := Tree.exists_parent hget
  rw [createDir, lookupParentNode_of_resolves (resolves_spell h), hprn]
  simp [hch]

theorem createDir_below_file (hget : self.root.get parent = some (.leaf f)) :
    self.createDir host (spell (parent ++ [name])) = .ok (.error .invalidParentDir, self, []) := by
  rw [createDir, lookupParentNode_of_resolves (resolves_spell h), hget]
  rfl

end

theorem createDirs_existing (h : ∀ n ∈ done ++ rest, ProperName n) (hget : self.root.get (done ++ rest) = some node)
    (more : List Name) : createDirs host done (rest ++ more) self [] = createDirs host (done ++ rest) more self [] := by
  induction rest generalizing done with
  | nil => simp
  | cons name rest ih =>
    rw [append_cons] at h hget ⊢
    obtain ⟨above, habv, -⟩ := Option.bind_eq_some_iff.mp ((Tree.get_append _ _ _).symm.trans hget)
    rw [cons_append, createDirs, createDir_existing (fun n hn => h n (mem_append_left rest hn)) habv]
    exact ih h hget

structure Made (before after : Fs) (done : List Name) : Prop where
  reached : ∃ node, after.root.get done = some node
  labels : ∀ p, after.root.labelAt p = before.root.labelAt p ∨
    before.root.labelAt p = none ∧ p <+: done ∧ ∃ dir, after.root.labelAt p = some (.inr dir)

theorem Made.createDir (h : Made self fs done) (hpp : ∀ n ∈ done ++ [name], ProperName n) :
    Ensures (fs.createDir host (spell (done ++ [name]))) fun out =>
      out.1 = .ok () ∨ out.1 = .error .alreadyExist → Made self out.2.1 (done ++ [name]) := by
  have hlbl (p) : fs.root.labelAt p = self.root.labelAt p ∨
      self.root.labelAt p = none ∧ p <+: done ++ [name] ∧ ∃ dir, fs.root.labelAt p = some (.inr dir) := by
    obtain hsm | ⟨hno, hpre, hdir⟩ := h.labels p
    · exact .inl hsm
    · exact .inr ⟨hno, hpre.trans (prefix_append _ _), hdir⟩
  cases hget : fs.root.get (done ++ [name]) with
  | some node =>
    rw [createDir_existing hpp hget]
    exact fun _ => ⟨⟨node, hget⟩, hlbl⟩
  | none =>
    obtain ⟨f | ⟨b, children⟩, hdn⟩ := h.reached
    · rw [createDir_below_file hpp hdn]
      rintro (hr | hr) <;> cases hr
    · have hno := (Tree.get_child hdn name).symm.trans hget
      rw [Fs.createDir, lookupParentNode_of_resolves (resolves_spell hpp), hdn]
      simp only [Option.map_some, ok_bind, hno]
      cases b with
      | none => rintro (hr | hr) <;> cases hr
      | some dir =>
        refine .ite (fun _ => trivial) fun _ => (handleOpenErr_spec _ _ _ _).imp ?_
        rintro _ ⟨-, rfl⟩ -
        have hadd := adds_insert hdn hno (labelAt_emptyDirectory (some (hostJoin dir name)))
        refine ⟨?_, fun p => ?_⟩
        · have hnew := hadd.labels (done ++ [name])
          rw [if_pos rfl] at hnew
          obtain ⟨node, hnod, -⟩ := Option.map_eq_some_iff.mp hnew
          exact ⟨node, hnod⟩
        · rw [hadd.labels]
          split
          · rename_i hp
            rw [hp]
            refine .inr ⟨?_, prefix_refl _, _, rfl⟩
            obtain hsm | ⟨hnew, -⟩ := hlbl (done ++ [name])
            · exact hsm.symm.trans hadd.new
            · exact hnew
          · exact hlbl p

theorem createDirs_made (h : Made self fs done) (hpp : ∀ n ∈ done ++ rest, ProperName n) :
    Ensures (createDirs host done rest fs ops) fun out => out.1 = .ok () → Made self out.2.1 (done ++ rest) := by
  induction rest generalizing done fs ops with
  | nil => exact fun _ => by simpa using h
  | cons name rest ih =>
    rw [append_cons] at hpp ⊢
    refine (h.createDir fun n hn => hpp n (mem_append_left rest hn)).bind ?_
    rintro ⟨r, fs', new⟩ hma
    split
    · rename_i heq
      cases heq
      exact ih (hma (.inl rfl)) hpp
    · rename_i heq
      cases heq
      exact ih (hma (.inr rfl)) hpp
    · exact nofun

/-- What `create_dir_all` is for, where the path has these components. -/
structure MakesDirectories (before : Fs) (host : HostOp → Bool) (path : GuestPath) (components : List Name) : Prop where
  made : ∀ after ops, before.createDirAll host path = .ok (.ok (), after, ops) →
    (∀ p, p <+: components → ∃ dir, after.root.labelAt p = some (.inr dir)) ∧
      ∀ p, after.root.labelAt p = before.root.labelAt p ∨ before.root.labelAt p = none ∧ p <+: components
  refused : ∀ p f, p <+: components → before.root.labelAt p = some (.inl f) →
    ∃ e after ops, before.createDirAll host path = .ok (.error e, after, ops)

theorem createDirAll_eq (h : resolvePath path none = .ok components) :
    self.createDirAll host path = createDirs host [] components self [] := by
  by_cases hhd : path.head? = some '/'
  · rw [createDirAll, if_pos hhd, h]
    rfl
  · rw [resolvePath, if_neg hhd] at h
    cases h

/-- The directories of a path are made, and a file on it is an error, unless the file is the last component. -/
theorem makesDirectories_iff (h : resolvePath path none = .ok components) :
    MakesDirectories self host path components ↔ ∀ f, self.root.labelAt components ≠ some (.inl f) := by
  have hproper := resolvePath_proper h
  refine ⟨fun hmakes f hf => ?_, fun hnot => ⟨fun after ops hcall => ?_, fun p f hpre hf => ?_⟩⟩
  · obtain ⟨e, after, ops, hcall⟩ := hmakes.refused components f (prefix_refl _) hf
    obtain ⟨node, hnode, -⟩ := Option.map_eq_some_iff.mp hf
    have hloop : createDirs host [] (components ++ []) self [] = _ := createDirs_existing hproper hnode []
    rw [createDirAll_eq h, ← append_nil components, hloop] at hcall
    cases hcall
  · rw [createDirAll_eq h] at hcall
    have hstart : Made self self [] := ⟨⟨_, rfl⟩, fun p => .inl rfl⟩
    obtain ⟨⟨node, hnode⟩, hlabels⟩ := (createDirs_made hstart hproper).ok hcall rfl
    refine ⟨fun p hpre => ?_, fun p => (hlabels p).imp_right fun hp => ⟨hp.1, hp.2.1⟩⟩
    obtain ⟨rest, rfl⟩ := hpre
    obtain ⟨found, hfound, hrest⟩ := Option.bind_eq_some_iff.mp ((Tree.get_append _ p rest).symm.trans hnode)
    have hp : after.root.labelAt p = some found.label := by rw [Tree.labelAt, hfound]; rfl
    cases found with
    | node dir children => exact ⟨dir, hp⟩
    | leaf f =>
      cases rest with
      | cons k rest => cases hrest
      | nil =>
        obtain hsame | ⟨-, -, hdir⟩ := hlabels p
        · rw [append_nil] at hnot
          exact absurd (hsame.symm.trans hp) (hnot f)
        · exact hdir
  · obtain ⟨rest, rfl⟩ := hpre
    obtain ⟨node, hnode, hlabel⟩ := Option.map_eq_some_iff.mp hf
    obtain rfl : node = .leaf f := by
      cases node <;> cases hlabel
      rfl
    have hloop : createDirs host [] (p ++ rest) self [] = _ :=
      createDirs_existing (fun n hn => hproper n (mem_append_left rest hn)) hnode rest
    rw [createDirAll_eq h, hloop]
    cases rest with
    | nil => exact absurd hf (by simpa using hnot f)
    | cons name rest =>
      rw [append_cons] at hproper
      rw [nil_append, createDirs, createDir_below_file (fun n hn => hproper n (mem_append_left rest hn)) hnode]
      exact ⟨_, _, _, rfl⟩

theorem makesDirectories_iff_new : ∃ fs, resolvePath ['/', 'a'] none = .ok [['a']] ∧
    (MakesDirectories fs (fun _ => true) ['/', 'a'] [['a']] ↔ ∀ f, fs.root.labelAt [['a']] ≠ some (.inl f)) :=
  ⟨⟨.directory [] (some [['h']]), ['/'], ['/']⟩, rfl, makesDirectories_iff rfl⟩

/-- The last component is a file, and `create_dir_all` succeeds. -/
theorem createDirAll_over_file : ∃ fs, fs.createDirAll (fun _ => true) ['/', 'a'] = .ok (.ok (), fs, []) ∧
    ¬MakesDirectories fs (fun _ => true) ['/', 'a'] [['a']] := by
  refine ⟨⟨.directory [(['a'], .file (.path []) true)] none, ['/'], ['/']⟩, rfl, fun h => ?_⟩
  obtain ⟨e, after, ops, hcall⟩ := h.refused [['a']] _ (prefix_refl _) rfl
  cases hcall

end TouchHLE.Fs
