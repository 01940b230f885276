import Pagewright.Config
import Pagewright.Proofs.Site.Reach

/-! One project, seen by two programs: the server works where it was started, and the build that it starts
works in the project directory. The settings file and the four directories are spelled in two ways, which
come to the same steps. -/

namespace Pagewright

open Files Site

variable {working settings base path : Path} {front : List String} {name : String}

namespace Path

section Names

/-- A path whose last step is the name of a file. -/
structure Ends (path : Path) (front : List String) (name : String) : Prop where
  taken : path.steps = front ++ [name]
  onward : name ≠ ".."
  plain : '/' ∉ name.toList
  named : isVoid name = false

theorem ends_of_fileName? (found : path.fileName? = some name) : ∃ front, path.Ends front name := by
  obtain ⟨last, onward⟩ := fileName?_eq_some.mp found
  obtain ⟨front, taken⟩ := List.getLast?_eq_some_iff.mp last
  obtain ⟨inside, named⟩ := List.mem_filter.mp (show name ∈ path.steps by simp [taken])
  exact ⟨front, taken, onward, not_mem_of_pieces inside, by simpa using named⟩

theorem steps_name (plain : '/' ∉ name.toList) (named : isVoid name = false) : (Path.mk name).steps = [name] := by
  simp [steps, pieces_name plain, named]

namespace Ends

variable (ends : path.Ends front name)
include ends

theorem filled : name ≠ "" ∧ name ≠ "." := by simpa [isVoid] using ends.named

theorem getLast?_ne_dot (parts : List String) : (parts ++ [name]).getLast? ≠ some "." := by
  rw [List.getLast?_concat]
  exact fun same => ends.filled.2 (Option.some.inj same)

theorem isEmpty : path.isEmpty = false := by
  rw [← Bool.not_eq_true]
  intro empty
  have nothing := steps_of_empty empty
  simp [ends.taken] at nothing

/-- Only dots can stand behind the last step. -/
theorem exists_dots :
    ∃ before dots, path.pieces.filter (· ≠ "") = before ++ name :: dots ∧ (∀ dot ∈ dots, dot = ".") ∧
      (before ++ [name]).filter (!isVoid ·) = path.steps := by
  have listed := filter_filter_pieces path
  rw [ends.taken, List.filter_eq_append_iff] at listed
  obtain ⟨first, second, listed, kept, last⟩ := listed
  obtain ⟨void, dots, rfl, nothing, step, rest⟩ := List.filter_eq_cons_iff.mp last
  refine ⟨first ++ void, dots, by rw [listed, List.append_assoc], fun dot member => ?_, ?_⟩
  · have within : dot ∈ path.pieces.filter (· ≠ "") := by
      rw [listed]
      simp [member]
    have full : dot ≠ "" := by simpa using (List.mem_filter.mp within).2
    have vain := List.filter_eq_nil_iff.mp rest dot member
    simpa [isVoid, full] using vain
  · rw [List.filter_append, List.filter_append, List.filter_eq_nil_iff.mpr nothing, List.append_nil, kept, ends.taken,
      List.filter_singleton, step]
    rfl

end Ends

end Names

end Path

section Directory

theorem projectDirectory_alone (taken : settings.steps = [name]) :
    projectDirectory settings = if settings.isAbsolute then ⟨"/"⟩ else ⟨"."⟩ := by
  rw [projectDirectory, (Path.parent?_alone taken).1, Path.split_fst]
  by_cases absolute : settings.isAbsolute = true
  · simp only [absolute, if_true]
    rfl
  · simp only [absolute, Bool.false_eq_true, if_false]
    split <;> rfl

/-- The directory that the last step of a path is taken in. -/
structure Holds (directory path : Path) (front : List String) (name : String) : Prop where
  steps : directory.steps = front
  start : directory.isAbsolute = path.isAbsolute
  full : directory.isEmpty = false
  size : (directory.join ⟨name⟩).text.utf8ByteSize ≤ path.text.utf8ByteSize ∨ directory = ⟨"."⟩ ∧ front = []

theorem holds_alone (ends : settings.Ends [] name) : Holds (projectDirectory settings) settings [] name := by
  have taken : settings.steps = [name] := ends.taken
  have directory := projectDirectory_alone taken
  have relative := Path.isAbsolute_name ends.plain
  by_cases absolute : settings.isAbsolute = true
  · rw [if_pos absolute] at directory
    rw [directory]
    refine ⟨by decide, by rw [absolute]; rfl, rfl, .inl (Path.size_le_of_sublist ?_)⟩
    have joined : (Path.join ⟨"/"⟩ ⟨name⟩).pieces = ["", name] := by
      rw [Path.join_of_relative relative]
      exact (Path.pieces_append "" name).trans (by rw [Path.pieces_name ends.plain]; rfl)
    rw [joined, Path.pieces_split settings, Path.isAbsolute_iff_root.mp absolute]
    exact (List.singleton_sublist.mpr (Path.parent?_alone taken).2).cons_cons ""
  · rw [if_neg absolute] at directory
    rw [directory]
    exact ⟨by decide, (eq_false_of_ne_true absolute).symm, rfl, .inr ⟨rfl, rfl⟩⟩

theorem holds_parent (ends : settings.Ends front name) (more : front ≠ []) :
    Holds (projectDirectory settings) settings front name := by
  obtain ⟨parent, found, above⟩ := Path.exists_parent ends.taken more
  have full : parent.isEmpty = false := by
    rw [← Bool.not_eq_true]
    intro empty
    exact more (above.steps.symm.trans (Path.steps_of_empty empty))
  have directory : projectDirectory settings = parent := by
    rw [projectDirectory, found]
    simp [full]
  rw [directory]
  refine ⟨above.steps, above.start, full, .inl (Path.size_le_of_sublist ?_)⟩
  obtain ⟨before, ending, left, joined, _, _⟩ := Path.pieces_join (Path.isAbsolute_name ends.plain) full
  obtain ⟨rest, whole⟩ := above.pieces
  -- The name comes behind the pieces of the parent.
  have member : name ∈ rest := by
    have steps : parent.steps ++ rest.filter (!Path.isVoid ·) = front ++ [name] := by
      rw [← ends.taken, Path.steps, Path.steps, ← List.filter_append, whole]
    rw [above.steps, List.append_cancel_left_eq] at steps
    exact (List.mem_filter.mp (steps ▸ List.mem_singleton_self name)).1
  rw [joined, Path.pieces_name ends.plain, ← whole, left, List.append_assoc]
  exact (List.Sublist.refl before).append ((List.singleton_sublist.mpr member).trans (List.sublist_append_right _ _))

theorem holds_projectDirectory (ends : settings.Ends front name) :
    Holds (projectDirectory settings) settings front name := by
  by_cases more : front = []
  · subst more
    exact holds_alone ends
  · exact holds_parent ends more

theorem projectDirectory_name (plain : '/' ∉ name.toList) (named : Path.isVoid name = false) :
    projectDirectory ⟨name⟩ = ⟨"."⟩ := by
  rw [projectDirectory_alone (Path.steps_name plain named), Path.isAbsolute_name plain]
  rfl

end Directory

section Settings

variable {again : Path} {disk : Disk}

/-- A path spelled again, by the directory of its last step and the name of that step. -/
structure Respells (again path : Path) (name : String) : Prop where
  steps : again.steps = path.steps
  start : again.isAbsolute = path.isAbsolute
  full : again.isEmpty = false
  undotted : again.Undotted
  slash : again.endsInSlash = false
  size : again.text.utf8ByteSize ≤ path.text.utf8ByteSize ∨
    again.text.utf8ByteSize = name.utf8ByteSize + 2 ∧ path.steps = [name]

theorem respells_projectDirectory (ends : settings.Ends front name) :
    Respells ((projectDirectory settings).join ⟨name⟩) settings name := by
  have holds := holds_projectDirectory ends
  have relative := Path.isAbsolute_name ends.plain
  refine ⟨?_, ?_, Path.isEmpty_join ends.filled.1, ?_, Path.endsInSlash_join ends.plain ends.named, ?_⟩
  · rw [Path.steps_join relative, holds.steps, Path.steps_name ends.plain ends.named, ends.taken]
  · rw [Path.isAbsolute_join relative, holds.start]
  · rw [Path.Undotted, Path.filter_pieces_join ends.plain ends.filled.1]
    exact ends.getLast?_ne_dot _
  · rcases holds.size with shorter | ⟨directory, alone⟩
    · exact .inl shorter
    · have text : (Path.join ⟨"."⟩ ⟨name⟩).text = "." ++ "/" ++ name := by
        rw [Path.join_of_relative relative]
        rfl
      have lead : ("." ++ "/").utf8ByteSize = 2 := rfl
      refine .inr ⟨?_, by rw [ends.taken, alone, List.nil_append]⟩
      rw [directory, text, String.utf8ByteSize_append, lead, Nat.add_comm]

theorem Respells.contains_nul (respells : Respells again path name) :
    again.text.toList.contains '\x00' = path.text.toList.contains '\x00' := by
  rw [Bool.eq_iff_iff, List.contains_iff_mem, List.contains_iff_mem, Path.mem_text_iff (by decide) (by decide),
    Path.mem_text_iff (by decide) (by decide), respells.steps]

theorem Respells.size_le (respells : Respells again path name) (fits : path.text.utf8ByteSize ≤ longestPath)
    (short : name.utf8ByteSize ≤ longestName) : again.text.utf8ByteSize ≤ longestPath := by
  rcases respells.size with shorter | ⟨size, _⟩
  · exact shorter.trans fits
  · rw [size]
    exact (Nat.add_le_add_right short 2).trans (by decide)

/-- What a path finds is found by the other spelling too. -/
theorem Respells.find_eq_ok {found : Location × Entry} (respells : Respells again path name)
    (ends : path.Ends front name) (there : disk.find path = .ok found) : disk.find again = .ok found := by
  obtain ⟨location, entry⟩ := found
  obtain ⟨target, followed, present, _, rfl⟩ := Disk.find_eq_ok.mp there
  obtain ⟨⟨clean, _, fits⟩, follows⟩ := Disk.target_eq_ok.mp followed
  obtain ⟨before, dots, listed, void, steps⟩ := ends.exists_dots
  rw [listed] at follows
  obtain ⟨parent, leads, short, arrives⟩ := follows.name ends.named ends.onward void
  have proper : "" ∉ before ++ [name] := by
    have filled : "" ∉ path.pieces.filter (· ≠ "") := by simp
    rw [listed] at filled
    simp_all
  have onward : Follows disk.tree (origin disk.directory again) (again.pieces.filter (· ≠ ""))
      (.entry parent name) := by
    refine follows_of_follow (Eq.trans ?_ leads.follow_eq)
    rw [origin, origin, respells.start]
    refine follow_of_steps ⟨by simp, proper⟩ ⟨respells.undotted, ends.getLast?_ne_dot before⟩ ?_
    rw [Path.filter_filter_pieces, steps, respells.steps]
  have same : target.location = parent ++ [name] := by
    rcases arrives with rfl | ⟨rfl, _⟩ <;> rfl
  have arrival := Disk.target_eq_ok.mpr
    ⟨⟨respells.contains_nul.trans clean, respells.full, respells.size_le fits short⟩, onward⟩
  rw [same] at present ⊢
  exact Disk.find_eq_ok.mpr ⟨_, arrival, present, fun _ _ _ _ _ => respells.slash, rfl⟩

theorem Respells.target_eq (respells : Respells again path name) (ends : path.Ends front name)
    (undotted : path.Undotted) (fits : path.text.utf8ByteSize ≤ longestPath) :
    disk.target again = disk.target path := by
  have nul := respells.contains_nul
  by_cases clean : path.text.toList.contains '\x00' = true
  · have refused : unreadable? path = some .nulByte := if_pos clean
    have also : unreadable? again = some .nulByte := if_pos (nul.trans clean)
    rw [target_of_unreadable refused, target_of_unreadable also]
  have readable : unreadable? path = none := by rw [unreadable?, if_neg clean, if_neg (Nat.not_lt.mpr fits)]
  rw [target_of_readable readable ends.isEmpty]
  by_cases long : longestPath < again.text.utf8ByteSize
  · -- Only a name that is too long itself makes the other spelling too long.
    obtain ⟨size, alone⟩ := respells.size.resolve_left fun shorter => absurd long (Nat.not_lt.mpr (shorter.trans fits))
    have refused : unreadable? again = some .nameTooLong := by rw [unreadable?, if_neg (nul ▸ clean), if_pos long]
    have longer : longestName < name.utf8ByteSize := by
      have paths : longestPath = 4095 := rfl
      have names : longestName = 255 := rfl
      omega
    have way : follow disk.tree (origin disk.directory path) (path.pieces.filter (· ≠ "")) =
        follow disk.tree (origin disk.directory path) [name] := by
      refine follow_of_steps ⟨by simp, by simpa using ends.filled.1.symm⟩ ⟨undotted, ends.getLast?_ne_dot []⟩ ?_
      rw [Path.filter_filter_pieces, alone, List.filter_singleton, ends.named]
      rfl
    rw [target_of_unreadable refused, way, follow_name [] ends.filled.2 ends.onward, if_pos longer]
  · have also : unreadable? again = none := by rw [unreadable?, if_neg (nul ▸ clean), if_neg long]
    rw [target_of_readable also respells.full, origin, origin, respells.start]
    refine follow_of_steps ⟨by simp, by simp⟩ ⟨respells.undotted, undotted⟩ ?_
    rw [Path.filter_filter_pieces, Path.filter_filter_pieces, respells.steps]

/-- Paths that end in their file name are found alike in both spellings, and fail alike. -/
theorem Respells.find_eq (respells : Respells again path name) (ends : path.Ends front name)
    (last : path.pieces.getLast? = some name) (fits : path.text.utf8ByteSize ≤ longestPath) :
    disk.find again = disk.find path := by
  obtain ⟨before, listed⟩ := List.getLast?_eq_some_iff.mp last
  have undotted : path.Undotted := by
    rw [Path.Undotted, listed, List.filter_append, List.filter_cons_of_pos (by simpa using ends.filled.1),
      List.filter_nil]
    exact ends.getLast?_ne_dot _
  have slash : path.endsInSlash = false := by
    rw [← Bool.not_eq_true]
    intro slash
    exact ends.filled.1 (Option.some.inj (last.symm.trans (Path.getLast?_pieces_of_endsInSlash slash)))
  rw [Disk.find, Disk.find, respells.target_eq ends undotted fits, respells.slash, slash]

end Settings

section Seen

variable {directory entry : Path}

/-- A settings file and its other spelling, from the directory that the first was given in. -/
structure SameFile (working settings again : Path) (name : String) : Prop where
  path : (working.join again).components = (working.join settings).components
  found : ∀ (disk : Disk) found, disk.find settings = .ok found → disk.find again = .ok found
  alike : ∀ disk : Disk, settings.pieces.getLast? = some name → settings.text.utf8ByteSize ≤ longestPath →
    disk.find again = disk.find settings

theorem sameFile (rooted : working.isAbsolute = true) (named : settings.fileName? = some name) :
    SameFile working settings ((projectDirectory settings).join ⟨name⟩) name := by
  obtain ⟨front, ends⟩ := Path.ends_of_fileName? named
  have respells := respells_projectDirectory ends
  exact {
    path := Path.components_join_congr rooted respells.steps respells.start
    found := fun disk found there => respells.find_eq_ok ends there
    alike := fun disk last fits => respells.find_eq ends last fits }

/-- A path that is read in one directory is the same directory as another path that is read in the
directory worked in. -/
structure SameDirectory (working directory inner outer : Path) : Prop where
  path : ((working.join directory).join inner).components = (working.join outer).components
  place : ∀ here, landing (landing here directory) inner = landing here outer

theorem sameDirectory (rooted : working.isAbsolute = true) :
    SameDirectory working directory ((Path.mk ".").join entry) (directory.join entry) := by
  have current : (Path.mk ".").isAbsolute = false := by decide
  have nowhere : (Path.mk ".").steps = [] := by decide
  cases relative : entry.isAbsolute with
  | true =>
    have alone (base : Path) : base.join entry = entry := by rw [Path.join, if_pos relative]
    exact ⟨by simp only [alone], fun here => by simp only [alone, landing, origin, relative, if_true]⟩
  | false =>
    refine ⟨?_, fun here => ?_⟩
    · rw [Path.components_of_isAbsolute (by simp [Path.isAbsolute_join_eq, rooted]),
        Path.components_of_isAbsolute (by simp [Path.isAbsolute_join_eq, rooted])]
      simp only [Path.steps_join_eq, Path.isAbsolute_join_eq, relative, current, nowhere]
      cases directory.isAbsolute <;> simp
    · have inner : landing (landing here directory) (.mk ".") = landing here directory := by
        rw [landing, origin, current, nowhere]
        rfl
      rw [landing_join relative, landing_join relative, inner]

/-- The four directories of a build, read in the project directory and in the directory worked in. -/
structure SameDirectories (working directory : Path) (inner outer : BuildConfig) : Prop where
  routes : SameDirectory working directory inner.routes outer.routes
  output : SameDirectory working directory inner.output outer.output
  static : SameDirectory working directory inner.static outer.static
  scripts : SameDirectory working directory inner.scripts outer.scripts

/-- A build that is started in the project directory reads the settings of the server, if it finds them at
all, and resolves them to the directories of the server. -/
theorem rebuild_sees_project (working settings : Path) (name : String) (config : Config)
    (rooted : working.isAbsolute = true) (named : settings.fileName? = some name) :
    rebuildArguments settings = ["--config", name, "build"] ∧
      SameFile working settings ((projectDirectory settings).join ⟨name⟩) name ∧
      SameDirectories working (projectDirectory settings) (config.buildConfig (projectDirectory ⟨name⟩))
        (config.buildConfig (projectDirectory settings)) := by
  obtain ⟨front, ends⟩ := Path.ends_of_fileName? named
  refine ⟨by rw [rebuildArguments, named]; rfl, sameFile rooted named, ?_⟩
  rw [projectDirectory_name ends.plain ends.named]
  exact ⟨sameDirectory rooted, sameDirectory rooted, sameDirectory rooted, sameDirectory rooted⟩

/-- Dots and slashes in the way to a settings file, one directory that is set relative to it, and one that
is not. -/
theorem rebuild_sees_project_nested :
    (Path.mk "/srv").isAbsolute = true ∧ (Path.mk "./site//conf/..//prod.toml").fileName? = some "prod.toml" ∧
      rebuildArguments ⟨"./site//conf/..//prod.toml"⟩ = ["--config", "prod.toml", "build"] ∧
      SameFile ⟨"/srv"⟩ ⟨"./site//conf/..//prod.toml"⟩ ⟨"./site//conf/../prod.toml"⟩ "prod.toml" ∧
      SameDirectory ⟨"/srv"⟩ ⟨"./site//conf/.."⟩ ⟨"./pages/"⟩ ⟨"./site//conf/../pages/"⟩ ∧
      SameDirectory ⟨"/srv"⟩ ⟨"./site//conf/.."⟩ ⟨"/var/www"⟩ ⟨"/var/www"⟩ := by
  have rooted : (Path.mk "/srv").isAbsolute = true := by decide
  have named : (Path.mk "./site//conf/..//prod.toml").fileName? = some "prod.toml" := by decide
  obtain ⟨arguments, file, directories⟩ := rebuild_sees_project ⟨"/srv"⟩ ⟨"./site//conf/..//prod.toml"⟩ "prod.toml"
    { project := { routes := "pages/", output := "/var/www" } } rooted named
  exact ⟨rooted, named, arguments, file, directories.routes, directories.output⟩

/-- A site with a settings file. -/
def configuredSite : Disk where
  tree := (Disk.emptyAt ["site"]).tree.put ["site"] "cwrap.toml" (.file "[project]\nroutes = \"pages\"\n".toUTF8)
  directory := ["site"]

/-- A slash behind the name of the settings file makes it a directory for the server, which goes on without
settings. The build is given the name alone and reads them. -/
theorem slash_hides_settings :
    (Path.mk "cwrap.toml/").fileName? = some "cwrap.toml" ∧
      rebuildArguments ⟨"cwrap.toml/"⟩ = ["--config", "cwrap.toml", "build"] ∧
      configuredSite.find ⟨"cwrap.toml/"⟩ = .error .notDirectory ∧
      Config.load configuredSite ⟨"cwrap.toml/"⟩ = .ok {} ∧
      Config.load configuredSite ((projectDirectory ⟨"cwrap.toml/"⟩).join ⟨"cwrap.toml"⟩) =
        .ok { project := { routes := "pages" } } := by
  refine ⟨by decide, by decide, by decide +kernel, by decide +kernel, by decide +kernel⟩

end Seen

end Pagewright
