import Pagewright.Proofs.Files.Steps
import Pagewright.Proofs.Markup.Failure
import Pagewright.Proofs.Site.Deposit
import Pagewright.Proofs.Site.Discovery
import Pagewright.Proofs.Site.Schedule

/-! The client script of a page. From the directory of the page, what the page refers to is the file that the script is
placed in, however deep the page lies. -/

namespace Pagewright.Site

open Files Expansion
open Markup (climb scriptPath scriptTag Documents)

variable {disk start after : Disk} {root output scripts : Path} {route : Route} {names rest : List String}
variable {base front : List Component}

section Entering

/-- What a reference leads to by one component, as far as texts tell: two dots take back the last name. -/
def enter (base : List Component) : Component → List Component
  | .root => [.root]
  | .current => base
  | .parent =>
    match base.getLast? with
    | some (.name _) => base.dropLast
    | some .root => base
    | _ => base ++ [.parent]
  | .name text => base ++ [.name text]

/-- What a reference leads to from a directory. -/
def referred (directory reference : Path) : List Component := reference.components.foldl enter directory.components

theorem foldl_enter_names (base : List Component) (names : List String) :
    (names.map Component.name).foldl enter base = base ++ names.map Component.name := by
  induction names generalizing base with
  | nil => exact (List.append_nil base).symm
  | cons name rest ih => simp [enter, ih]

theorem enter_parent (base : List Component) (name : String) : enter (base ++ [.name name]) .parent = base := by
  simp [enter]

/-- As many steps back as there are names take them all back, and none of them leads further. -/
theorem prefix_enter (base : List Component) (rest : List String)
    (begins : front <+: List.replicate names.length .parent ++ rest.map Component.name) :
    base <+: front.foldl enter (base ++ names.map Component.name) := by
  induction names using List.reverseRecOn generalizing front with
  | nil =>
    obtain ⟨shown, _, rfl⟩ := List.prefix_map_iff.mp begins
    rw [List.map_nil, List.append_nil, foldl_enter_names]
    exact List.prefix_append _ _
  | append_singleton names last ih =>
    cases front with
    | nil => exact List.prefix_append _ _
    | cons step front =>
      rw [List.length_append, List.length_singleton, List.replicate_succ, List.cons_append] at begins
      obtain ⟨rfl, further⟩ := List.cons_prefix_cons.mp begins
      rw [List.map_append, List.map_singleton, ← List.append_assoc, List.foldl_cons, enter_parent]
      exact ih further

theorem foldl_enter (base : List Component) (names rest : List String) :
    (List.replicate names.length Component.parent ++ rest.map Component.name).foldl enter
      (base ++ names.map Component.name) = base ++ rest.map Component.name := by
  induction names using List.reverseRecOn with
  | nil => rw [List.map_nil, List.append_nil, List.length_nil, List.replicate_zero, List.nil_append, foldl_enter_names]
  | append_singleton names last ih =>
    rw [List.length_append, List.length_singleton, List.replicate_succ, List.cons_append, List.map_append,
      List.map_singleton, ← List.append_assoc, List.foldl_cons, enter_parent, ih]

end Entering

section Reference

theorem climb_append (depth : Nat) (text : String) :
    climb (depth + 1) ++ text = ".." ++ "/" ++ (climb depth ++ text) := by
  simp [climb, List.replicate_succ, String.append_assoc]

theorem pieces_reference (depth : Nat) :
    (Path.mk (climb depth ++ scriptPath)).pieces = List.replicate depth ".." ++ ["scripts", clientScriptName] := by
  induction depth with
  | zero => decide
  | succ depth ih =>
    rw [climb_append, Path.pieces_append, ih, List.replicate_succ]
    rfl

theorem components_reference (depth : Nat) : (Path.mk (climb depth ++ scriptPath)).components =
    List.replicate depth .parent ++ ["scripts", clientScriptName].map Component.name := by
  have pieces := pieces_reference depth
  have relative : (Path.mk (climb depth ++ scriptPath)).isAbsolute = false := by
    rw [← Bool.not_eq_true, Path.isAbsolute_iff, pieces]
    cases depth <;> simp [List.replicate_succ]
  have plain : (Path.mk (climb depth ++ scriptPath)).split.1 = .nothing := by
    rw [Path.split_fst, relative, pieces]
    cases depth <;> simp [List.replicate_succ]
  have proper : ∀ name ∈ ["scripts", clientScriptName], IsEntryName name := by decide
  have steps : (Path.mk (climb depth ++ scriptPath)).steps =
      List.replicate depth ".." ++ ["scripts", clientScriptName] := by
    rw [Path.steps, pieces, List.filter_append, List.filter_replicate_of_pos (by decide)]
    rfl
  have back : Path.pieceComponent? ".." = some .parent := rfl
  rw [Path.components_eq, plain, steps, List.filterMap_append, filterMap_pieceComponent? proper,
    List.filterMap_replicate_of_some back]
  rfl

/-- From the directory of a page that lies as deep as it says, its reference leads to the place of the script, and never
out of the output directory. -/
theorem referred_script (output : Path) (proper : ∀ name ∈ names, IsEntryName name) :
    referred (output.join ⟨"/".intercalate names⟩) ⟨climb names.length ++ scriptPath⟩ =
        ((output.join ⟨"scripts"⟩).join ⟨clientScriptName⟩).components ∧
      ∀ front, front <+: (Path.mk (climb names.length ++ scriptPath)).components →
        output.components <+: front.foldl enter (output.join ⟨"/".intercalate names⟩).components := by
  have plain : ∀ name ∈ ["scripts", clientScriptName], IsEntryName name := by decide
  have target : (pathBelow output ["scripts", clientScriptName]).components = _ := components_pathBelow plain
  rw [pathBelow_cons, pathBelow_cons, pathBelow_nil] at target
  rw [target, referred, components_join_intercalate proper, components_reference]
  exact ⟨foldl_enter _ _ _, fun front => prefix_enter _ _⟩

end Reference

section Placing

/-- The script is placed in one file, and nothing else is written. -/
theorem placed_script {own : Bool} (works : start.tree.at? start.directory = some .directory)
    (ended : (placeClientScript scripts output).on start = (.ok own, after)) :
    (∃ content, after.find ((output.join ⟨"scripts"⟩).join ⟨clientScriptName⟩) =
        .ok (landing start.directory ((output.join ⟨"scripts"⟩).join ⟨clientScriptName⟩), .file content) ∧
      (own = false → content = clientScript.toUTF8)) ∧
    Grows (Passes start.directory (output.join ⟨"scripts"⟩))
      (· = landing start.directory ((output.join ⟨"scripts"⟩).join ⟨clientScriptName⟩)) start after := by
  obtain ⟨_, middle, made, ended⟩ := OnDisk.on_bind_eq_ok.mp ended
  have grows := makeDirectories_grows (output.join ⟨"scripts"⟩) start
  rw [made] at grows
  have here : middle.tree.at? middle.directory = some .directory := grows.directory ▸ grows.isDirectory works
  rw [OnDisk.on_bind, OnDisk.on_get] at ended
  dsimp only at ended
  rw [← grows.directory]
  have first : Grows _ (· = landing middle.directory ((output.join ⟨"scripts"⟩).join ⟨clientScriptName⟩))
      start middle := grows.mono (fun _ => id) fun _ => False.elim
  rw [← grows.directory] at first
  split at ended
  next =>
    obtain ⟨_, last, copied, ended⟩ := OnDisk.on_bind_eq_ok.mp ended
    cases ended
    have copy := copyFile_grows (scripts.join ⟨clientScriptName⟩)
      ((output.join ⟨"scripts"⟩).join ⟨clientScriptName⟩) middle
    rw [copied] at copy
    obtain ⟨content, found⟩ := find_of_copyFile here copied
    exact ⟨⟨content, found, nofun⟩, first.trans (copy.mono (fun _ => False.elim) fun _ => id)⟩
  next =>
    obtain ⟨_, last, written, ended⟩ := OnDisk.on_bind_eq_ok.mp ended
    cases ended
    have wrote := write_of_writeFile written
    refine ⟨⟨_, find_of_write here wrote, fun _ => rfl⟩, first.trans ?_⟩
    exact (write_grows wrote).mono (fun _ => False.elim) fun _ => id

theorem shell_append (head body script : String) :
    ∃ text, Markup.shell head (body ++ script) = text ++ script ++ "\n</html>\n" := by
  unfold Markup.shell
  refine ⟨"<!DOCTYPE html>\n<html lang=\"en\">\n" ++ head ++ "\n" ++ body, ?_⟩
  rw [← String.append_assoc]

variable {placeholder : Placeholder} {source : Path} {depth : Nat} {documents : Documents}

/-- A page that is compiled ends in the reference for its depth. -/
theorem html_of_compileRoute
    (compiled : (compileRoute placeholder source output depth).on start = (.ok documents, after)) :
    ∃ text, documents.html = text ++ scriptTag depth ++ "\n</html>\n" := by
  obtain ⟨page, _⟩ := compiled_steps compiled
  rw [compilePage, bind_eq_ok] at page
  obtain ⟨skeleton, _, rendered⟩ := page
  obtain ⟨trees, _, rfl⟩ := Markup.compile_eq_ok.mp (mapError_eq_ok.mp rendered)
  exact shell_append _ _ _

end Placing

/-- Every page finds its client script. The tag that a route's page ends in refers to a path; from the output directory
of the route, this path leads to the file in which the script is placed, and at no point out of the output directory. -/
theorem script_found (found : route ∈ routes disk root) (output scripts : Path) :
    ∃ reference, '"' ∉ reference.toList ∧
      scriptTag route.depth = "<script src=\"" ++ reference ++ "\" type=\"module\"></script>" ∧
      referred (route.output output) ⟨reference⟩ = ((output.join ⟨"scripts"⟩).join ⟨clientScriptName⟩).components ∧
      (∀ front, front <+: (Path.mk reference).components →
        output.components <+: front.foldl enter (route.output output).components) ∧
      (∀ start after own, start.tree.at? start.directory = some .directory →
        (placeClientScript scripts output).on start = (.ok own, after) →
          (∃ content, after.find ((output.join ⟨"scripts"⟩).join ⟨clientScriptName⟩) =
              .ok (landing start.directory ((output.join ⟨"scripts"⟩).join ⟨clientScriptName⟩), .file content) ∧
            (own = false → content = clientScript.toUTF8)) ∧
          Grows (Passes start.directory (output.join ⟨"scripts"⟩))
            (· = landing start.directory ((output.join ⟨"scripts"⟩).join ⟨clientScriptName⟩)) start after) ∧
      ∀ placeholder start documents after,
        (compileRoute placeholder route.source (route.output output) route.depth).on start = (.ok documents, after) →
          ∃ text, documents.html = text ++ scriptTag route.depth ++ "\n</html>\n" := by
  have proper : ∀ name ∈ route.names, IsEntryName name := names_of_mem (isDirectory_of_mem found) found
  obtain ⟨arrives, within⟩ := referred_script output proper
  refine ⟨climb route.depth ++ scriptPath, ?_, ?_, arrives, within, ?_, ?_⟩
  · simp [climb, scriptPath, String.toList_join]
  · simp only [scriptTag, String.append_assoc]
  · exact fun start after own => placed_script
  · exact fun placeholder start documents after => html_of_compileRoute

theorem script_found_posts :
    let site := siteOf [["posts", "first"]]
    let output : Path := ⟨"./build//"⟩
    ∃ route ∈ routes site ⟨"routes"⟩, route.names = ["posts", "first"] ∧
      scriptTag route.depth = "<script src=\"../../scripts/cwrapFunctions.js\" type=\"module\"></script>" ∧
      (∃ reference, '"' ∉ reference.toList ∧ referred (route.output output) ⟨reference⟩ =
        [.current, .name "build", .name "scripts", .name "cwrapFunctions.js"]) ∧
      (∃ after, (placeClientScript ⟨"scripts"⟩ output).on site = (.ok false, after) ∧
        after.find ((output.join ⟨"scripts"⟩).join ⟨clientScriptName⟩) =
          .ok (["site", "build", "scripts", "cwrapFunctions.js"], .file clientScript.toUTF8)) ∧
      ∃ documents after text, (compileRoute .standard route.source (route.output output) route.depth).on site =
          (.ok documents, after) ∧ documents.html = text ++ scriptTag route.depth ++ "\n</html>\n" := by
  intro site output
  have works : site.tree.at? site.directory = some .directory := by decide +kernel
  have found : (⟨⟨"routes/posts/first"⟩, ["posts", "first"]⟩ : Route) ∈ routes site ⟨"routes"⟩ := by decide +kernel
  obtain ⟨reference, clean, _, arrives, _, placed, compiled⟩ := script_found found output ⟨"scripts"⟩
  have target : ((output.join ⟨"scripts"⟩).join ⟨clientScriptName⟩).components =
      [.current, .name "build", .name "scripts", .name "cwrapFunctions.js"] := by decide
  have lands : landing site.directory ((output.join ⟨"scripts"⟩).join ⟨clientScriptName⟩) =
      ["site", "build", "scripts", "cwrapFunctions.js"] := by decide
  refine ⟨_, found, rfl, by decide, ⟨reference, clean, arrives.trans target⟩, ?_, ?_⟩
  · have own : ((placeClientScript ⟨"scripts"⟩ output).on site).1.toOption = some false := by decide +kernel
    cases run : (placeClientScript ⟨"scripts"⟩ output).on site with
    | mk result after =>
      rw [run] at own
      cases result with
      | error => cases own
      | ok other =>
        cases own
        obtain ⟨content, there, bundled⟩ := (placed site after false works run).1
        exact ⟨after, rfl, by rw [there, lands, bundled rfl]⟩
  · have done : ((compileRoute .standard ⟨"routes/posts/first"⟩ (output.join ⟨"posts/first"⟩) 2).on site).1.isOk = true := by
      decide +kernel
    cases run : (compileRoute .standard ⟨"routes/posts/first"⟩ (output.join ⟨"posts/first"⟩) 2).on site with
    | mk result after =>
      rw [run] at done
      cases result with
      | error => cases done
      | ok documents =>
        obtain ⟨text, html⟩ := compiled .standard site documents after run
        exact ⟨documents, after, text, run, html⟩

end Pagewright.Site
