import Pagewright.Json.Decoder
import Pagewright.Json.Printer

/-! Live reload: what the server tells the pages that are open, how the messages reach them, and
the script that listens for them. -/

namespace Pagewright

open Json

inductive ReloadMessage where
  | reload (path : String)
  | connected
deriving DecidableEq

namespace ReloadMessage

def toValue : ReloadMessage → Value
  | .reload path => .object [("type", .string "reload"), ("path", .string path)]
  | .connected => .object [("type", .string "connected")]

def print (message : ReloadMessage) : String := message.toValue.print .compact

/-- The kind of a message, which is read before its content. -/
inductive Kind where
  | reload
  | connected

def decodeKind : Decoder Kind := fun access value => do
  match ← Decoder.string access value with
  | "reload" => return .reload
  | "connected" => return .connected
  | _ => .error .misshapen

def kindField : RecordField (Option Kind) := .of "type" decodeKind fun kind _ => some kind

def pathField : RecordField String := .of "path" Decoder.string fun path _ => path

/-- A message is an object, or an array that starts with the kind. -/
def decode : Decoder ReloadMessage
  | access, .object members ending => do
    let (_, kind) ← readMembers [kindField] .readWhole (← access.enter) [] none members
    checkEnding ending
    match kind with
    | none => .error .misshapen
    | some .connected => return .connected
    | some .reload =>
      let (seen, path) ← readMembers [pathField] .skipped .memory [] "" members
      checkRequired ["path"] seen
      return .reload path
  | access, .array items ending => do
    let inner ← access.enter
    match items with
    | [] =>
      checkEnding ending
      .error .misshapen
    | kind :: content =>
      let kind ← decodeKind inner kind
      content.forM fun item => inner.whole item
      checkEnding ending
      match kind with
      | .connected => if content.isEmpty then return .connected else .error .misshapen
      | .reload =>
        let (seen, path) ← readItems .memory [] "" [pathField] content
        checkRequired ["path"] seen
        return .reload path
  | _, value => .error value.refuse

def ofText : String → Except Fault ReloadMessage := decode.ofText

end ReloadMessage

/-- How many of the latest messages are kept for pages that do not read them. -/
def mailboxSize : Nat := 128

/-- The messages that open pages have been sent, oldest first, and for each of these pages how many of them it has
behind it. All pages read from one row of messages. -/
structure ReloadHub where
  sent : List ReloadMessage := []
  positions : Keyed String Nat := ∅
  within : ∀ entry ∈ positions.entries, entry.2 ≤ sent.length := by decide

namespace ReloadHub

def subscribers (hub : ReloadHub) : Nat := hub.positions.entries.length

/-- Moves a page to a position. -/
def place (hub : ReloadHub) (page : String) (position : Nat) (inside : position ≤ hub.sent.length) : ReloadHub where
  sent := hub.sent
  positions := hub.positions.insert page position
  within entry member := by
    rcases mem_insertEntry member with rfl | known
    · exact inside
    · exact hub.within entry known

/-- A page is sent what comes after it has subscribed. -/
def subscribe (hub : ReloadHub) (page : String) : ReloadHub := hub.place page hub.sent.length (Nat.le_refl _)

def unsubscribe (hub : ReloadHub) (page : String) : ReloadHub where
  sent := hub.sent
  positions := hub.positions.erase page
  within entry member := hub.within entry (List.mem_filter.mp member).1

/-- A message that no page is open for is dropped. -/
def send (hub : ReloadHub) (message : ReloadMessage) : ReloadHub :=
  if hub.positions.isEmpty then hub
  else
    { sent := hub.sent ++ [message]
      positions := hub.positions
      within entry member := by
        rw [List.length_append]
        exact Nat.le_add_right_of_le (hub.within entry member) }

/-- Takes the next message for a page, where so many of the latest messages are kept. A page that fell behind first
finds nothing, and then the oldest of those that are kept. -/
def receiveKeeping (kept : Nat) (hub : ReloadHub) (page : String) : Option ReloadMessage × ReloadHub :=
  match hub.positions.get? page with
  | none => (none, hub)
  | some position =>
    if position < hub.sent.length - kept then
      (none, hub.place page (hub.sent.length - kept) (Nat.sub_le ..))
    else if next : position < hub.sent.length then
      (some hub.sent[position], hub.place page (position + 1) next)
    else (none, hub)

def receive (hub : ReloadHub) (page : String) : Option ReloadMessage × ReloadHub := hub.receiveKeeping mailboxSize page

end ReloadHub

def reloadPath : String := "/__livereload"

def reloadScriptPath : String := "/__livereload.js"

/-- Splits a text in front of the last occurrence of a pattern. -/
def splitAtLast? (pattern : List Char) : List Char → Option (List Char × List Char)
  | [] => if pattern.isEmpty then some ([], []) else none
  | c :: rest =>
    match splitAtLast? pattern rest with
    | some (before, found) => some (c :: before, found)
    | none => if pattern.isPrefixOf (c :: rest) then some ([], c :: rest) else none

/-- Puts the script tag in front of the last closing body tag, or at the end. -/
def injectReloadScript (html : String) : String :=
  let tag := "<script src=\"" ++ reloadScriptPath ++ "\"></script>"
  match splitAtLast? "</body>".toList html.toList with
  | some (before, found) => String.ofList before ++ tag ++ String.ofList found
  | none => html ++ tag

/-- The script of a page, one line each. -/
def reloadScriptLines : List String := [
  "",
  "(function() \x7b",
  "  'use strict';",
  "",
  "  const protocol = location.protocol === 'https:' ? 'wss:' : 'ws:';",
  "  const ws = new WebSocket(protocol + '//' + location.host + '/__livereload');",
  "",
  "  ws.onmessage = function(event) \x7b",
  "    const msg = JSON.parse(event.data);",
  "    if (msg.type === 'reload') \x7b",
  "      console.log('[livereload] ' + msg.path + ' changed');",
  "      location.reload();",
  "    \x7d",
  "  \x7d;",
  "",
  "  ws.onclose = function() \x7b",
  "    console.log('[livereload] Disconnected');",
  "    setTimeout(function() \x7b location.reload(); \x7d, 1000);",
  "  \x7d;",
  "\x7d)();"]

def reloadScript : String := String.join (reloadScriptLines.map (· ++ "\n"))

end Pagewright
