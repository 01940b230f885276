import Pagewright.Proofs.Editor.Saving
import Pagewright.Proofs.Json.Roundtrip
import Pagewright.Proofs.Skeleton.Buffered

/-! A page that has been saved. Its file holds the document as it was sent, up to its layout and to keys
that came twice, so whoever reads the file gets the same value and the same page. -/

namespace Pagewright.Editor

open Files Json
open Skeleton (Page)

/-- Where the numbers of a document keep all their digits, the text that saving stores is read as the same
value, with its members in the same order, and as the same page if it was one. So the documents compiled
from the file are those of the page that was sent. -/
theorem saved_document {text : String} {value : Value} (accepted : Value.ofText text = .ok value)
    (whole : (Document.ofText text).root.WholeNumbers) :
    Value.ofText (value.print .indented) = .ok value ∧
      (∀ page, Page.ofText text = .ok page → Page.ofText (value.print .indented) = .ok page) ∧
      ∀ base subPath directory disk reply after, disk.tree.at? disk.directory = some .directory →
        resolveSubPath base subPath = some directory →
        (saveSkeleton base subPath value).run disk = (reply, after) → reply.status = 200 →
          after.readText (directory.join ⟨Site.skeletonName⟩) = .ok (value.print .indented) ∧
          ∀ page placeholder depth, Page.ofText text = .ok page →
            Site.compilePage placeholder after directory depth =
              (Markup.compile placeholder depth page).mapError (.template directory) := by
  have again : ∀ page, Page.ofText text = .ok page → Page.ofText (value.print .indented) = .ok page :=
    fun page read => (Skeleton.carries_page conveys_printed).ofText_print accepted whole read
  refine ⟨Value.ofText_print accepted whole, again, ?_⟩
  intro base subPath directory disk reply after works resolved saved succeeds
  have saving := saveValue_saving directory Site.skeletonName value disk
  have run : (Reply.ofSteps (saveValue directory Site.skeletonName value)).run disk = (reply, after) := by
    rw [saveSkeleton, resolved] at saved
    exact saved
  rw [run] at saving
  have found := saving.found succeeds works
  have read : after.readText (directory.join ⟨Site.skeletonName⟩) = .ok (value.print .indented) :=
    readText_of_find found
  refine ⟨read, fun page placeholder depth sent => ?_⟩
  have loaded : Site.loadPage after directory = .ok page := by
    have file : after.isFile (directory.join ⟨Site.skeletonName⟩) = true := by
      rw [Disk.isFile, found]
    simp only [Site.loadPage, file, read, again page sent]
    rfl
  rw [Site.compilePage, loaded]
  rfl

/-- A page with an unknown member and an attribute that come twice, the largest number, and characters
that are escaped. -/
def cardText : String :=
  "\x7b\"element\":\"p\",\"note\":[-1,[]],\"attributes\":\x7b\"id\":18446744073709551615," ++
  "\"title\":\"\\u0007\\\"\",\"id\":7\x7d,\"note\":\x7b\x7d\x7d"

def cardValue : Value := .object [("element", .string "p"), ("note", .object []),
  ("attributes", .object [("id", .number (.integer 7)), ("title", .string "\x07\"")])]

def cardPage : Page where
  root.own := {
    tag := some "p"
    attributes := .ofList [("id", .number (.integer 7)), ("title", .text "\x07\"")] }

set_option maxRecDepth 2000 in
theorem saved_document_card :
    Value.ofText (cardValue.print .indented) = .ok cardValue ∧
      Page.ofText cardText = .ok cardPage ∧ Page.ofText (cardValue.print .indented) = .ok cardPage ∧
      ((saveSkeleton ⟨"routes"⟩ "cards" cardValue).run emptySite).2.readText ⟨"routes/cards/skeleton.json"⟩ =
        .ok (cardValue.print .indented) := by
  have accepted : Value.ofText cardText = .ok cardValue := by cbv
  have whole : (Document.ofText cardText).root.WholeNumbers := by decide +kernel
  have read : Page.ofText cardText = .ok cardPage := by cbv
  obtain ⟨again, same, stored⟩ := saved_document accepted whole
  have succeeds : ((saveSkeleton ⟨"routes"⟩ "cards" cardValue).run emptySite).1.status = 200 := by decide +kernel
  exact ⟨again, read, same cardPage read,
    (stored ⟨"routes"⟩ "cards" ⟨"routes/cards"⟩ emptySite _ _ (by decide +kernel) (by decide) rfl succeeds).1⟩

end Pagewright.Editor
