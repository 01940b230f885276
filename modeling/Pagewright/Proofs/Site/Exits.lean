import Pagewright.Proofs.Files.Differing
import Pagewright.Proofs.Site.Deposit
import Pagewright.Proofs.Site.Schedule

/-! How the compilation of a page into an output directory ends, wherever the two paths lead. It ends before
anything is written, or with both documents, or with the path that could not be written. -/

namespace Pagewright.Site

open Files Expansion
open Markup (Documents)

variable {placeholder : Placeholder} {disk opened marked after : Disk} {source output path : Path} {depth : Nat}
variable {documents : Documents} {name : String}

section Places

/-- Where a document lies in an output directory. -/
def documentPlace (disk : Disk) (output : Path) (name : String) : Location :=
  landing disk.directory output ++ [name]

theorem steps_document (document : name ∈ [markupName, stylesName]) : Path.steps ⟨name⟩ = [name] := by
  revert name
  decide

theorem isAbsolute_document (document : name ∈ [markupName, stylesName]) : (Path.mk name).isAbsolute = false := by
  revert name
  decide

theorem landing_document (document : name ∈ [markupName, stylesName]) :
    landing disk.directory (output.join ⟨name⟩) = documentPlace disk output name := by
  have plain : name ≠ ".." := by
    revert name
    decide
  rw [landing_join (isAbsolute_document document), steps_document document, List.foldl_cons, List.foldl_nil, advance,
    if_neg plain, documentPlace]

/-- A document is reached past directories only. -/
theorem isDirectory_of_write (works : disk.tree.at? disk.directory = some .directory)
    (document : name ∈ [markupName, stylesName]) {content : ByteArray}
    (written : disk.write (output.join ⟨name⟩) content = .ok after) {location : Location}
    (passes : Passes disk.directory output location) : disk.tree.at? location = some .directory := by
  obtain ⟨parent, last, followed, _⟩ := Disk.write_eq_ok.mp written
  obtain ⟨front, begins, rfl⟩ := passes
  have relative := isAbsolute_document document
  have steps : (output.join ⟨name⟩).steps = output.steps ++ [name] := by
    rw [Path.steps_join relative, steps_document document]
  have start : origin disk.directory (output.join ⟨name⟩) = origin disk.directory output := by
    rw [origin, origin, Path.isAbsolute_join relative]
  rcases Disk.passed works followed (steps ▸ begins.trans (List.prefix_append _ _)) with whole | directory
  · have longer := begins.length_le
    rw [whole, steps, List.length_append, List.length_singleton] at longer
    omega
  · rwa [start] at directory

end Places

/-- What has been made on the way to an output directory: directories that were missing. -/
theorem openOutput_passes {result : Except FileError Unit} (made : openOutput disk output = (result, opened)) :
    Grows (Passes disk.directory output) (fun _ => False) disk opened := by
  have opens := makeDirectories_grows output disk
  unfold openOutput at made
  split at made
  · cases made
    exact .refl disk
  · rwa [made] at opens

/-- A document that is written is the only file that is changed. -/
theorem writeDocument_grows (document : name ∈ [markupName, stylesName]) {content : ByteArray}
    (same : opened.directory = disk.directory) (written : opened.write (output.join ⟨name⟩) content = .ok after) :
    Grows (fun _ => False) (· = documentPlace disk output name) opened after := by
  have place : documentPlace opened output name = documentPlace disk output name := by
    rw [documentPlace, same, documentPlace]
  exact place ▸ landing_document document ▸ write_grows written

/-- A document that is written is found in its place. -/
theorem find_of_writeDocument (document : name ∈ [markupName, stylesName]) {content : ByteArray}
    (works : opened.tree.at? opened.directory = some .directory)
    (same : opened.directory = disk.directory) (written : opened.write (output.join ⟨name⟩) content = .ok after) :
    after.find (output.join ⟨name⟩) = .ok (documentPlace disk output name, .file content) := by
  rw [find_of_write works written, landing_document document, documentPlace, same, documentPlace]

/-- What a page leaves behind that is written. -/
structure Delivered (disk after : Disk) (output : Path) (documents : Documents) : Prop where
  markup : after.find (output.join ⟨markupName⟩) =
    .ok (documentPlace disk output markupName, .file documents.html.toUTF8)
  styles : after.find (output.join ⟨stylesName⟩) =
    .ok (documentPlace disk output stylesName, .file documents.css.toUTF8)
  passed : ∀ location, Passes disk.directory output location → after.tree.at? location = some .directory
  grows : Grows (Passes disk.directory output)
    (fun location => location = documentPlace disk output markupName ∨ location = documentPlace disk output stylesName)
    disk after

/-- What a page leaves behind that could not be written, by the path that is reported. The way to the output
directory can lead past the place of the styles, and then makes a directory there. -/
structure Stopped (disk after : Disk) (output path : Path) : Prop where
  reported : path = output ∨ path = output.join ⟨markupName⟩ ∨ path = output.join ⟨stylesName⟩
  grows : Grows (Passes disk.directory output)
    (fun location => path = output.join ⟨stylesName⟩ ∧ location = documentPlace disk output markupName) disk after
  styles : ¬ Passes disk.directory output (documentPlace disk output stylesName) →
    after.tree.at? (documentPlace disk output stylesName) = disk.tree.at? (documentPlace disk output stylesName)

theorem markupPlace_ne_stylesPlace (disk : Disk) (output : Path) :
    documentPlace disk output markupName ≠ documentPlace disk output stylesName := by
  simp [documentPlace, markupName, stylesName]

theorem stopped_of_grows (reported : path = output ∨ path = output.join ⟨markupName⟩ ∨ path = output.join ⟨stylesName⟩)
    (grows : Grows (Passes disk.directory output)
      (fun location => path = output.join ⟨stylesName⟩ ∧ location = documentPlace disk output markupName) disk after) :
    Stopped disk after output path where
  reported := reported
  grows := grows
  styles past :=
    (grows.change _).eq_of_not past fun written => markupPlace_ne_stylesPlace disk output written.2.symm

theorem delivered_of_steps (works : disk.tree.at? disk.directory = some .directory)
    (made : openOutput disk output = (.ok ⟨⟩, opened))
    (first : opened.write (output.join ⟨markupName⟩) documents.html.toUTF8 = .ok marked)
    (second : marked.write (output.join ⟨stylesName⟩) documents.css.toUTF8 = .ok after) :
    Delivered disk after output documents := by
  have markup : markupName ∈ [markupName, stylesName] := by simp
  have styles : stylesName ∈ [markupName, stylesName] := by simp
  have opens := openOutput_passes made
  have marks := writeDocument_grows markup opens.directory first
  have same := marks.directory.trans opens.directory
  have styled := writeDocument_grows styles same second
  have open' : opened.tree.at? opened.directory = some .directory := opens.directory ▸ opens.isDirectory works
  have marked' : marked.tree.at? marked.directory = some .directory := marks.directory ▸ marks.isDirectory open'
  obtain ⟨content, kept, unchanged | moved⟩ := styled.find (find_of_writeDocument markup open' opens.directory first)
  · refine ⟨unchanged ▸ kept, find_of_writeDocument styles marked' same second, fun location passes => ?_, ?_⟩
    · rw [← opens.directory] at passes
      exact styled.isDirectory (marks.isDirectory (isDirectory_of_write open' markup first passes))
    · refine (opens.mono (fun _ => id) fun _ => False.elim).trans ?_
      exact (marks.mono (fun _ => False.elim) fun _ => .inl).trans (styled.mono (fun _ => False.elim) fun _ => .inr)
  · exact absurd moved (markupPlace_ne_stylesPlace disk output)

/-- Every way in which the compilation of a page ends. Only the last has written both documents. -/
theorem compileRoute_cases (placeholder : Placeholder) (source output : Path) (depth : Nat) (disk : Disk) :
    (∃ error, compilePage placeholder disk source depth = .error error ∧
      (compileRoute placeholder source output depth).on disk = (.error error, disk)) ∨
    ∃ documents, compilePage placeholder disk source depth = .ok documents ∧
      ((∃ path cause after, (compileRoute placeholder source output depth).on disk = (.error (.write path cause), after) ∧
          Stopped disk after output path) ∨
        ∃ opened marked after, (compileRoute placeholder source output depth).on disk = (.ok documents, after) ∧
          openOutput disk output = (.ok ⟨⟩, opened) ∧
          opened.write (output.join ⟨markupName⟩) documents.html.toUTF8 = .ok marked ∧
          marked.write (output.join ⟨stylesName⟩) documents.css.toUTF8 = .ok after) := by
  rw [on_compileRoute]
  cases compilePage placeholder disk source depth with
  | error error => exact .inl ⟨error, rfl, rfl⟩
  | ok documents =>
    refine .inr ⟨documents, rfl, ?_⟩
    rcases made : openOutput disk output with ⟨cause | ⟨⟩, opened⟩
    · exact .inl ⟨output, cause, opened, rfl,
        stopped_of_grows (.inl rfl) ((openOutput_passes made).mono (fun _ => id) fun _ => False.elim)⟩
    · have opens := openOutput_passes made
      dsimp only [writeDocuments]
      cases first : opened.write (output.join ⟨markupName⟩) documents.html.toUTF8 with
      | error cause =>
        exact .inl ⟨_, cause, opened, rfl,
          stopped_of_grows (.inr (.inl rfl)) (opens.mono (fun _ => id) fun _ => False.elim)⟩
      | ok marked =>
        have marks := writeDocument_grows (by simp) opens.directory first
        dsimp only
        cases second : marked.write (output.join ⟨stylesName⟩) documents.css.toUTF8 with
        | error cause =>
          refine .inl ⟨_, cause, marked, rfl, stopped_of_grows (.inr (.inr rfl)) ?_⟩
          refine (opens.mono (fun _ => id) fun _ => False.elim).trans ?_
          exact marks.mono (fun _ => False.elim) fun _ same => ⟨rfl, same⟩
        | ok after => exact .inr ⟨opened, marked, after, rfl, rfl, first, second⟩

theorem compilePage_eq (placeholder : Placeholder) (disk : Disk) (source : Path) (depth : Nat) :
    compilePage placeholder disk source depth =
      match loadPage disk source with
      | .error cause => .error (.skeleton cause)
      | .ok page => (Markup.compile placeholder depth page).mapError (.template source) := by
  rw [compilePage]
  cases loadPage disk source <;> rfl

theorem compilePage_ne_write {cause : FileError} :
    compilePage placeholder disk source depth ≠ .error (.write path cause) := by
  rw [compilePage_eq]
  cases loadPage disk source with
  | error => nofun
  | ok page =>
    dsimp only
    cases Markup.compile placeholder depth page <;> nofun

/-- A page is compiled before anything is written. If it is there and can be compiled, either both documents are
written, with the directories that are missing, or a path is reported that cannot be written, and no document
behind that path has changed. -/
theorem compileRoute_all_or_nothing (works : disk.tree.at? disk.directory = some .directory)
    {result : Except BuildError Documents}
    (ran : (compileRoute placeholder source output depth).on disk = (result, after)) :
    (∀ cause, loadPage disk source = .error cause → result = .error (.skeleton cause) ∧ after = disk) ∧
    (∀ page cause, loadPage disk source = .ok page → Markup.compile placeholder depth page = .error cause →
      result = .error (.template source cause) ∧ after = disk) ∧
    (∀ page documents, loadPage disk source = .ok page → Markup.compile placeholder depth page = .ok documents →
      result = .ok documents ∨ ∃ path cause, result = .error (.write path cause)) ∧
    (∀ documents, result = .ok documents → Delivered disk after output documents) ∧
    ∀ path cause, result = .error (.write path cause) → Stopped disk after output path := by
  have ends := compileRoute_cases placeholder source output depth disk
  refine ⟨fun cause missing => ?_, fun page cause loaded failed => ?_, fun page documents loaded made => ?_,
    fun documents written => ?_, fun path cause refused => ?_⟩
  · have stopped : compilePage placeholder disk source depth = .error (.skeleton cause) := by
      rw [compilePage_eq, missing]
    rw [on_compileRoute, stopped] at ran
    cases ran
    exact ⟨rfl, rfl⟩
  · have stopped : compilePage placeholder disk source depth = .error (.template source cause) := by
      simp only [compilePage_eq, loaded, failed, Except.mapError]
    rw [on_compileRoute, stopped] at ran
    cases ran
    exact ⟨rfl, rfl⟩
  · have given : compilePage placeholder disk source depth = .ok documents := by
      simp only [compilePage_eq, loaded, made, Except.mapError]
    obtain ⟨error, failed, _⟩ | ⟨others, again, ⟨path, cause, last, ended, _⟩ | ⟨_, _, last, ended, _⟩⟩ := ends
    · cases given.symm.trans failed
    · cases ran.symm.trans ended
      exact .inr ⟨path, cause, rfl⟩
    · cases ran.symm.trans ended
      cases given.symm.trans again
      exact .inl rfl
  · subst written
    obtain ⟨error, _, ended⟩ | ⟨others, _, ⟨path, cause, last, ended, _⟩ | ⟨opened, marked, last, ended, steps⟩⟩ := ends
    · cases ran.symm.trans ended
    · cases ran.symm.trans ended
    · cases ran.symm.trans ended
      obtain ⟨opening, first, second⟩ := steps
      exact delivered_of_steps works opening first second
  · subst refused
    obtain ⟨error, failed, ended⟩ | ⟨others, _, ⟨path, cause, last, ended, stopped⟩ | ⟨_, _, last, ended, _⟩⟩ := ends
    · cases ran.symm.trans ended
      exact absurd failed compilePage_ne_write
    · cases ran.symm.trans ended
      exact stopped
    · cases ran.symm.trans ended

theorem compileRoute_all_or_nothing_site :
    let site := siteOf [[]]
    (∃ documents after, (compileRoute .standard ⟨"routes"⟩ ⟨"build/"⟩ 0).on site = (.ok documents, after) ∧
      Delivered site after ⟨"build/"⟩ documents) ∧
    ∃ after, (compileRoute .standard ⟨"routes"⟩ ⟨"routes/skeleton.json/"⟩ 0).on site =
        (.error (.write ⟨"routes/skeleton.json/"⟩ .alreadyExists), after) ∧
      Stopped site after ⟨"routes/skeleton.json/"⟩ ⟨"routes/skeleton.json/"⟩ := by
  intro site
  have works : site.tree.at? site.directory = some .directory := by decide +kernel
  constructor
  · have done : ((compileRoute .standard ⟨"routes"⟩ ⟨"build/"⟩ 0).on site).1.isOk = true := by decide +kernel
    rcases ran : (compileRoute .standard ⟨"routes"⟩ ⟨"build/"⟩ 0).on site with ⟨cause | documents, after⟩
    · rw [ran] at done
      cases done
    · obtain ⟨_, _, _, delivered, _⟩ := compileRoute_all_or_nothing works ran
      exact ⟨documents, after, rfl, delivered documents rfl⟩
  · have refused : ((compileRoute .standard ⟨"routes"⟩ ⟨"routes/skeleton.json/"⟩ 0).on site).1 =
        .error (.write ⟨"routes/skeleton.json/"⟩ .alreadyExists) := by decide +kernel
    rcases ran : (compileRoute .standard ⟨"routes"⟩ ⟨"routes/skeleton.json/"⟩ 0).on site with ⟨result, after⟩
    rw [ran] at refused
    obtain ⟨_, _, _, _, stopped⟩ := compileRoute_all_or_nothing works ran
    exact ⟨after, by rw [← refused], stopped _ _ refused⟩

/-- An output directory that is reached past the places of both documents. -/
def crossing : Path := ⟨"build/styles.css/../index.html/.."⟩

/-- On the way a directory is made in the place of the styles, though it is the markup that cannot be written. -/
theorem styles_made_on_the_way :
    let site := siteOf [[]]
    ∃ after, (compileRoute .standard ⟨"routes"⟩ crossing 0).on site =
        (.error (.write (crossing.join ⟨markupName⟩) .isDirectory), after) ∧
      site.tree.at? (documentPlace site crossing stylesName) = none ∧
      after.tree.at? (documentPlace site crossing stylesName) = some .directory := by
  intro site
  have ended : ((compileRoute .standard ⟨"routes"⟩ crossing 0).on site).1 =
      .error (.write (crossing.join ⟨markupName⟩) .isDirectory) := by decide +kernel
  have stopped : ((compileRoute .standard ⟨"routes"⟩ crossing 0).on site).2.tree.at?
      (documentPlace site crossing stylesName) = some .directory := by decide +kernel
  rcases ran : (compileRoute .standard ⟨"routes"⟩ crossing 0).on site with ⟨result, after⟩
  rw [ran] at ended stopped
  exact ⟨after, by rw [← ended], by decide +kernel, stopped⟩

end Pagewright.Site
