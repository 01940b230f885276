import Mathlib.Data.Set.Card
import Pagewright.LiveReload
import Pagewright.Proofs.Keyed

/-! What pages are told over a series of steps in which they subscribe, leave and read, and messages are sent. A page
that keeps up reads the messages sent since it has subscribed, each once and in the order in which they were sent. -/

namespace Pagewright.ReloadHub

/-- What is done with a hub. All clones of a hub are that hub, so it is the same through which of them it is done. -/
inductive Step where
  | subscribe (page : String)
  | unsubscribe (page : String)
  | receive (page : String)
  | send (message : ReloadMessage)
deriving DecidableEq

/-- A step that has been taken, and the message that it has brought. -/
structure Event where
  step : Step
  answer : Option ReloadMessage
deriving DecidableEq

variable {kept : Nat} {hub other : ReloadHub} {page reader : String} {message : ReloadMessage} {event : Event}
variable {history later : List Event} {steps : List Step} {held now : Option (List ReloadMessage)}
variable {unread : List ReloadMessage}

section Running

def Step.run (kept : Nat) (hub : ReloadHub) : Step → Option ReloadMessage × ReloadHub
  | .subscribe page => (none, hub.subscribe page)
  | .unsubscribe page => (none, hub.unsubscribe page)
  | .receive page => hub.receiveKeeping kept page
  | .send message => (none, hub.send message)

/-- What comes of some steps. -/
def trace (kept : Nat) (hub : ReloadHub) : List Step → List Event
  | [] => []
  | step :: rest => ⟨step, (step.run kept hub).1⟩ :: trace kept (step.run kept hub).2 rest

def after (kept : Nat) (hub : ReloadHub) (steps : List Step) : ReloadHub :=
  steps.foldl (fun hub step => (step.run kept hub).2) hub

theorem trace_append (first last : List Step) :
    trace kept hub (first ++ last) = trace kept hub first ++ trace kept (after kept hub first) last := by
  induction first generalizing hub with
  | nil => rfl
  | cons step first ih => rw [List.cons_append, trace, trace, ih, List.cons_append, after, after, List.foldl_cons]

theorem trace_concat (steps : List Step) (step : Step) :
    trace kept hub (steps ++ [step]) = trace kept hub steps ++ [⟨step, (step.run kept (after kept hub steps)).1⟩] :=
  trace_append steps [step]

theorem after_concat (steps : List Step) (step : Step) :
    after kept hub (steps ++ [step]) = (step.run kept (after kept hub steps)).2 := List.foldl_concat ..

theorem length_trace (steps : List Step) : (trace kept hub steps).length = steps.length := by
  induction steps generalizing hub with
  | nil => rfl
  | cons step rest ih => rw [trace, List.length_cons, List.length_cons, ih]

end Running

section History

/-- The events that have come since the subscription of a page that is still open. -/
def Since (page : String) (history later : List Event) : Prop :=
  (∃ earlier subscribed, history = earlier ++ subscribed :: later ∧ subscribed.step = .subscribe page) ∧
    ∀ event ∈ later, event.step ≠ .subscribe page ∧ event.step ≠ .unsubscribe page

def Live (page : String) (history : List Event) : Prop := ∃ later, Since page history later

def sentIn (events : List Event) : List ReloadMessage := events.filterMap fun event =>
  match event.step with
  | .send message => some message
  | _ => none

def receivedBy (page : String) (events : List Event) : List ReloadMessage := events.filterMap fun event =>
  if event.step = .receive page then event.answer else none

theorem sentIn_append (events more : List Event) : sentIn (events ++ more) = sentIn events ++ sentIn more :=
  List.filterMap_append

theorem receivedBy_append (page : String) (events more : List Event) :
    receivedBy page (events ++ more) = receivedBy page events ++ receivedBy page more := List.filterMap_append

theorem since_concat : Since page (history ++ [event]) later ↔
    event.step = .subscribe page ∧ later = [] ∨
      (event.step ≠ .subscribe page ∧ event.step ≠ .unsubscribe page) ∧
        ∃ before, later = before ++ [event] ∧ Since page history before := by
  rcases List.eq_nil_or_concat' later with rfl | ⟨before, last, rfl⟩
  · constructor
    · rintro ⟨⟨earlier, subscribed, same, opened⟩, _⟩
      obtain ⟨_, last⟩ := List.append_inj' same rfl
      cases last
      exact .inl ⟨opened, rfl⟩
    · rintro (⟨opened, _⟩ | ⟨_, before, same, _⟩)
      · exact ⟨⟨history, event, rfl, opened⟩, List.forall_mem_nil _⟩
      · simp at same
  · constructor
    · rintro ⟨⟨earlier, subscribed, same, opened⟩, stays⟩
      rw [← List.cons_append, ← List.append_assoc] at same
      obtain ⟨front, final⟩ := List.append_inj' same rfl
      cases final
      refine .inr ⟨stays event (by simp), before, rfl, ⟨earlier, subscribed, front, opened⟩, fun event member => ?_⟩
      exact stays event (List.mem_append_left _ member)
    · rintro (⟨_, same⟩ | ⟨stays, front, same, ⟨earlier, subscribed, rfl, opened⟩, others⟩)
      · simp at same
      · obtain ⟨rfl, final⟩ := List.append_inj' same rfl
        cases final
        refine ⟨⟨earlier, subscribed, by simp, opened⟩, fun event member => ?_⟩
        rcases List.mem_append.mp member with early | final
        · exact others event early
        · rwa [List.mem_singleton.mp final]

theorem live_concat : Live page (history ++ [event]) ↔
    event.step = .subscribe page ∨ event.step ≠ .unsubscribe page ∧ Live page history := by
  simp only [Live, since_concat]
  constructor
  · rintro ⟨later, ⟨opened, _⟩ | ⟨⟨_, stays⟩, before, _, since⟩⟩
    · exact .inl opened
    · exact .inr ⟨stays, before, since⟩
  · intro given
    by_cases opened : event.step = .subscribe page
    · exact ⟨[], .inl ⟨opened, rfl⟩⟩
    · obtain ⟨stays, before, since⟩ := given.resolve_left opened
      exact ⟨before ++ [event], .inr ⟨⟨opened, stays⟩, before, rfl, since⟩⟩

end History

section Unread

/-- The messages that a page has before it, if it is open. -/
def unread? (hub : ReloadHub) (page : String) : Option (List ReloadMessage) :=
  (hub.positions.get? page).map (hub.sent.drop ·)

theorem unread?_place {position : Nat} (inside : position ≤ hub.sent.length) :
    (hub.place page position inside).unread? reader =
      if reader = page then some (hub.sent.drop position) else hub.unread? reader := by
  rw [unread?, place, Keyed.get?_insert]
  split <;> rfl

theorem unread?_subscribe :
    (hub.subscribe page).unread? reader = if reader = page then some [] else hub.unread? reader := by
  rw [subscribe, unread?_place, List.drop_length]

theorem unread?_unsubscribe :
    (hub.unsubscribe page).unread? reader = if reader = page then none else hub.unread? reader := by
  rw [unread?, unsubscribe, Keyed.get?_erase]
  split <;> rfl

theorem unread?_send : (hub.send message).unread? page = (hub.unread? page).map (· ++ [message]) := by
  rw [send]
  split
  next nobody =>
    have absent : hub.positions.get? page = none := by
      rw [Keyed.get?, List.isEmpty_iff.mp nobody, List.lookup_nil]
    simp [unread?, absent]
  next =>
    rw [unread?, unread?, Option.map_map]
    refine Option.map_congr fun position found => ?_
    have inside : position ≤ hub.sent.length := hub.within (page, position) (Keyed.mem_of_get? found)
    exact List.drop_append_of_le_length inside

/-- What reading does to the messages that a page has before it. -/
def take (kept : Nat) (unread : List ReloadMessage) : Option ReloadMessage × List ReloadMessage :=
  if kept < unread.length then (none, unread.drop (unread.length - kept)) else (unread.head?, unread.tail)

theorem receive_answer :
    (hub.receiveKeeping kept page).1 = (hub.unread? page).bind fun unread => (take kept unread).1 := by
  rw [receiveKeeping, unread?]
  cases found : hub.positions.get? page with
  | none => rfl
  | some position =>
    have inside : position ≤ hub.sent.length := hub.within (page, position) (Keyed.mem_of_get? found)
    simp only [Option.map_some, Option.bind_some, take, List.length_drop]
    by_cases behind : position < hub.sent.length - kept
    · have lags : kept < hub.sent.length - position := by omega
      rw [if_pos behind, if_pos lags]
    · have keeps : ¬ kept < hub.sent.length - position := by omega
      rw [if_neg behind, if_neg keeps]
      split
      next more => rw [List.head?_drop, List.getElem?_eq_getElem more]
      next done => rw [List.head?_drop, List.getElem?_eq_none (Nat.not_lt.mp done)]

theorem unread?_receive : (hub.receiveKeeping kept page).2.unread? reader =
    if reader = page then (hub.unread? page).map fun unread => (take kept unread).2 else hub.unread? reader := by
  rw [receiveKeeping]
  cases found : hub.positions.get? page with
  | none =>
    have closed : hub.unread? page = none := by rw [unread?, found, Option.map_none]
    by_cases same : reader = page
    · rw [if_pos same, same, closed, Option.map_none]
    · rw [if_neg same]
  | some position =>
    have inside : position ≤ hub.sent.length := hub.within (page, position) (Keyed.mem_of_get? found)
    have held : hub.unread? page = some (hub.sent.drop position) := by rw [unread?, found, Option.map_some]
    simp only [held, Option.map_some, take, List.length_drop]
    by_cases behind : position < hub.sent.length - kept
    · have lags : kept < hub.sent.length - position := by omega
      have oldest : hub.sent.length - kept = position + (hub.sent.length - position - kept) := by omega
      rw [if_pos behind, if_pos lags, unread?_place, List.drop_drop, ← oldest]
    · have keeps : ¬ kept < hub.sent.length - position := by omega
      rw [if_neg behind, if_neg keeps, List.tail_drop]
      split
      next more => rw [unread?_place]
      next done =>
        have all : hub.sent.length ≤ position := Nat.not_lt.mp done
        have nothing : hub.sent.drop position = hub.sent.drop (position + 1) := by
          rw [List.drop_of_length_le all, List.drop_of_length_le (Nat.le_succ_of_le all)]
        split
        next same => rw [same, held, nothing]
        next => rfl

/-- A page that has not fallen behind is told the oldest message that it has before it. -/
theorem take_of_kept (keeps : unread.length ≤ kept) : take kept unread = (unread.head?, unread.tail) :=
  if_neg (Nat.not_lt.mpr keeps)

theorem subscribers_eq_ncard (hub : ReloadHub) :
    hub.subscribers = {page | (hub.unread? page).isSome = true}.ncard := by
  have pages : {page | (hub.unread? page).isSome = true} = ↑(hub.positions.entries.map Prod.fst).toFinset := by
    ext page
    rw [Set.mem_ofPred_eq, unread?, Option.isSome_map, Keyed.get?_isSome, List.coe_toFinset, Set.mem_ofPred_eq]
  rw [pages, Set.ncard_coe_finset, List.toFinset_card_of_nodup hub.positions.distinct, List.length_map, subscribers]

end Unread

section Telling

/-- What a page has before it is what is left of the messages sent since its subscription behind those that it has
received. -/
structure Tells (page : String) (held : Option (List ReloadMessage)) (history : List Event) : Prop where
  live : held.isSome = true ↔ Live page history
  told : ∀ unread later, held = some unread → Since page history later →
    sentIn later = receivedBy page later ++ unread

namespace Tells

theorem subscribed (opened : event.step = .subscribe page) : Tells page (some []) (history ++ [event]) where
  live := iff_of_true rfl (live_concat.mpr (.inl opened))
  told unread later same since := by
    cases same
    rcases since_concat.mp since with ⟨_, rfl⟩ | ⟨⟨other, _⟩, _⟩
    · rfl
    · exact absurd opened other

theorem unsubscribed (closed : event.step = .unsubscribe page) : Tells page none (history ++ [event]) where
  live := by
    refine iff_of_false Bool.false_ne_true fun live => ?_
    rcases live_concat.mp live with opened | ⟨stays, _⟩
    · cases closed.symm.trans opened
    · exact stays closed
  told _ _ same := by cases same

/-- While the subscription of a page goes on, what is sent comes behind what it has before it, and what it receives
comes from the front of that. -/
theorem onward (tells : Tells page held history)
    (stays : event.step ≠ .subscribe page ∧ event.step ≠ .unsubscribe page) (remains : now.isSome = held.isSome)
    (moves : ∀ unread left, held = some unread → now = some left →
      unread ++ sentIn [event] = receivedBy page [event] ++ left) : Tells page now (history ++ [event]) where
  live := by
    rw [remains, tells.live, live_concat, or_iff_right stays.1, and_iff_right stays.2]
  told left later same since := by
    obtain ⟨unread, had⟩ : ∃ unread, held = some unread := by
      rw [← Option.isSome_iff_exists, ← remains, same, Option.isSome_some]
    rcases since_concat.mp since with ⟨opened, _⟩ | ⟨_, before, rfl, earlier⟩
    · exact absurd opened stays.1
    · rw [sentIn_append, receivedBy_append, tells.told unread before had earlier, List.append_assoc, List.append_assoc,
        moves unread left had same]

theorem unmoved (tells : Tells page held history)
    (stays : event.step ≠ .subscribe page ∧ event.step ≠ .unsubscribe page) (quiet : sentIn [event] = [])
    (idle : receivedBy page [event] = []) : Tells page held (history ++ [event]) := by
  refine tells.onward stays rfl fun unread left had has => ?_
  cases had.symm.trans has
  rw [quiet, idle, List.append_nil, List.nil_append]

end Tells

/-- All pages have had what the hub says they have had. -/
def Agrees (hub : ReloadHub) (history : List Event) : Prop := ∀ page, Tells page (hub.unread? page) history

theorem agrees_start : Agrees {} [] := by
  refine fun page => ⟨iff_of_false Bool.false_ne_true ?_, fun _ _ same => by cases same⟩
  rintro ⟨later, ⟨earlier, subscribed, same, _⟩, _⟩
  simp at same

/-- One step. No page may have more messages before it than are kept. -/
theorem Agrees.next (agrees : Agrees hub history)
    (keeps : ∀ page unread, hub.unread? page = some unread → unread.length ≤ kept) (step : Step) :
    Agrees (step.run kept hub).2 (history ++ [⟨step, (step.run kept hub).1⟩]) := by
  intro reader
  cases step with
  | subscribe page =>
    rw [Step.run, unread?_subscribe]
    split
    next same => exact .subscribed (same ▸ rfl)
    next apart => exact (agrees reader).unmoved ⟨by simpa using Ne.symm apart, nofun⟩ rfl rfl
  | unsubscribe page =>
    rw [Step.run, unread?_unsubscribe]
    split
    next same => exact .unsubscribed (same ▸ rfl)
    next apart => exact (agrees reader).unmoved ⟨nofun, by simpa using Ne.symm apart⟩ rfl rfl
  | receive page =>
    rw [Step.run, unread?_receive]
    split
    next same =>
      subst same
      refine (agrees reader).onward ⟨nofun, nofun⟩ (Option.isSome_map ..) fun unread left had has => ?_
      have taken := take_of_kept (keeps reader unread had)
      rw [had, Option.map_some, taken, Option.some.injEq] at has
      rw [receive_answer, had, Option.bind_some, taken, ← has]
      cases unread <;> simp [sentIn, receivedBy]
    next apart =>
      have idle : ∀ answer, receivedBy reader [⟨.receive page, answer⟩] = [] := by
        intro answer
        simp [receivedBy, Ne.symm apart]
      exact (agrees reader).unmoved ⟨nofun, nofun⟩ rfl (idle _)
  | send message =>
    rw [Step.run, unread?_send]
    refine (agrees reader).onward ⟨nofun, nofun⟩ (Option.isSome_map ..) fun unread left had has => ?_
    rw [had, Option.map_some, Option.some.injEq] at has
    exact has

/-- No open page has more than a hundred messages before it that it has not read. -/
def KeepsUp (history : List Event) : Prop := ∀ page later, Since page history later →
  (sentIn later).length ≤ (receivedBy page later).length + 100

theorem Agrees.length_le (agrees : Agrees hub history) (modest : KeepsUp history)
    (held : hub.unread? page = some unread) : unread.length ≤ 100 := by
  obtain ⟨later, since⟩ := (agrees page).live.mp (by rw [held, Option.isSome_some])
  have bound := modest page later since
  rw [(agrees page).told unread later held since, List.length_append] at bound
  omega

/-- All steps, as long as all pages keep up. -/
theorem agrees_after (retains : 100 ≤ kept) (modest : ∀ first, first <+: steps → KeepsUp (trace kept {} first)) :
    Agrees (after kept {} steps) (trace kept {} steps) := by
  induction steps using List.reverseRecOn with
  | nil => exact agrees_start
  | append_singleton steps step ih =>
    have agrees := ih fun first begins => modest first (begins.trans (List.prefix_append steps [step]))
    rw [after_concat, trace_concat]
    refine agrees.next (fun page unread held => ?_) step
    exact (agrees.length_le (modest steps (List.prefix_append steps [step])) held).trans retains

/-- What a page receives: the oldest message sent since its subscription that it has not received, if there is one, and
none that was sent at another time. -/
structure Delivers (page : String) (history : List Event) (answer : Option ReloadMessage) : Prop where
  oldest : ∀ later, Since page history later →
    ∃ unread, sentIn later = receivedBy page later ++ unread ∧ answer = unread.head?
  recent : ∀ message, answer = some message → ∃ later, Since page history later ∧ message ∈ sentIn later

theorem Agrees.delivers (agrees : Agrees hub history) (retains : 100 ≤ kept) (modest : KeepsUp history) :
    Delivers page history (hub.receiveKeeping kept page).1 := by
  have oldest : ∀ later, Since page history later → ∃ unread, sentIn later = receivedBy page later ++ unread ∧
      (hub.receiveKeeping kept page).1 = unread.head? := by
    intro later since
    obtain ⟨unread, held⟩ := Option.isSome_iff_exists.mp ((agrees page).live.mpr ⟨later, since⟩)
    refine ⟨unread, (agrees page).told unread later held since, ?_⟩
    rw [receive_answer, held, Option.bind_some, take_of_kept ((agrees.length_le modest held).trans retains)]
  refine ⟨oldest, fun message given => ?_⟩
  have held : (hub.unread? page).isSome = true := by
    rw [receive_answer] at given
    obtain ⟨unread, held, _⟩ := Option.bind_eq_some_iff.mp given
    rw [held, Option.isSome_some]
  obtain ⟨later, since⟩ := (agrees page).live.mp held
  obtain ⟨unread, sent, answer⟩ := oldest later since
  refine ⟨later, since, ?_⟩
  rw [sent]
  exact List.mem_append_right _ (List.mem_of_head? (answer.symm.trans given))

end Telling

section Independence

/-- A step that a page takes itself, or that sends a message. -/
def Concerns (page : String) : Step → Prop
  | .subscribe other | .unsubscribe other | .receive other => other = page
  | .send _ => True

instance (page : String) : DecidablePred (Concerns page)
  | .subscribe other | .unsubscribe other | .receive other => inferInstanceAs (Decidable (other = page))
  | .send _ => .isTrue trivial

/-- What a page has been answered when it read. -/
def answersTo (page : String) (events : List Event) : List (Option ReloadMessage) := events.filterMap fun event =>
  if event.step = .receive page then some event.answer else none

theorem unread?_of_other {step : Step} (apart : ¬ Concerns page step) :
    (step.run kept hub).2.unread? page = hub.unread? page := by
  cases step with
  | subscribe other => rw [Step.run, unread?_subscribe, if_neg (Ne.symm apart)]
  | unsubscribe other => rw [Step.run, unread?_unsubscribe, if_neg (Ne.symm apart)]
  | receive other => rw [Step.run, unread?_receive, if_neg (Ne.symm apart)]
  | send message => exact absurd trivial apart

theorem unread?_congr (same : hub.unread? page = other.unread? page) (step : Step) :
    (step.run kept hub).2.unread? page = (step.run kept other).2.unread? page := by
  cases step with
  | subscribe => rw [Step.run, Step.run, unread?_subscribe, unread?_subscribe, same]
  | unsubscribe => rw [Step.run, Step.run, unread?_unsubscribe, unread?_unsubscribe, same]
  | receive reader =>
    rw [Step.run, Step.run, unread?_receive, unread?_receive]
    split
    next here => rw [← here, same]
    next => exact same
  | send => rw [Step.run, Step.run, unread?_send, unread?_send, same]

/-- A page learns nothing of the steps of other pages. -/
theorem answersTo_filter (same : hub.unread? page = other.unread? page) :
    answersTo page (trace kept hub steps) = answersTo page (trace kept other (steps.filter (Concerns page ·))) := by
  induction steps generalizing hub other with
  | nil => rfl
  | cons step rest ih =>
    by_cases own : Concerns page step
    · rw [List.filter_cons_of_pos (by simpa using own), trace, trace, answersTo, answersTo, List.filterMap_cons,
        List.filterMap_cons, ← answersTo, ← answersTo, ih (unread?_congr same step)]
      by_cases reads : step = .receive page
      · subst reads
        have answers : (Step.run kept hub (.receive page)).1 = (Step.run kept other (.receive page)).1 := by
          rw [Step.run, Step.run, receive_answer, receive_answer, same]
        rw [answers]
      · simp only [if_neg reads]
    · have others : step ≠ .receive page := by
        rintro rfl
        exact own rfl
      rw [List.filter_cons_of_neg (by simpa using own), trace, answersTo, List.filterMap_cons, ← answersTo,
        ih ((unread?_of_other own).trans same)]
      simp only [if_neg others]

end Independence

/-- A page that keeps up receives every message sent since its subscription, once and in order, whatever other pages do.
The hub keeps at least the latest hundred messages. -/
theorem messages_delivered (retains : 100 ≤ kept) (modest : ∀ first, first <+: steps → KeepsUp (trace kept {} first)) :
    (∀ first page, first ++ [.receive page] <+: steps →
      Delivers page (trace kept {} first) ((after kept {} first).receiveKeeping kept page).1) ∧
    (∀ first, first <+: steps → (after kept {} first).subscribers = {page | Live page (trace kept {} first)}.ncard) ∧
    ∀ page, answersTo page (trace kept {} steps) = answersTo page (trace kept {} (steps.filter (Concerns page ·))) := by
  have agrees : ∀ first, first <+: steps → Agrees (after kept {} first) (trace kept {} first) := fun first begins =>
    agrees_after retains fun front earlier => modest front (earlier.trans begins)
  refine ⟨fun first page reads => ?_, fun first begins => ?_, fun page => answersTo_filter rfl⟩
  · have begins : first <+: steps := (List.prefix_append first _).trans reads
    exact (agrees first begins).delivers retains (modest first begins)
  · rw [subscribers_eq_ncard]
    congr 1
    ext page
    exact (agrees first begins page).live

theorem keepsUp_of_length (short : history.length ≤ 100) : KeepsUp history := by
  rintro page later ⟨⟨earlier, subscribed, rfl, _⟩, _⟩
  have few : (sentIn later).length ≤ later.length := List.length_filterMap_le ..
  rw [List.length_append, List.length_cons] at short
  omega

theorem messages_delivered_rejoined :
    let front : List Step := [.send .connected, .subscribe "a", .send (.reload "1"), .subscribe "b",
      .send (.reload "2"), .unsubscribe "a", .send (.reload "3"), .subscribe "a", .send (.reload "4"), .receive "b"]
    let steps := front ++ [.receive "a"]
    100 ≤ mailboxSize ∧ (∀ first, first <+: steps → KeepsUp (trace mailboxSize {} first)) ∧
      front ++ [.receive "a"] <+: steps ∧ Delivers "a" (trace mailboxSize {} front) (some (.reload "4")) ∧
      {page | Live page (trace mailboxSize {} front)}.ncard = 2 ∧
      answersTo "b" (trace mailboxSize {} (steps.filter (Concerns "b" ·))) = [some (.reload "2")] := by
  intro front steps
  have retains : 100 ≤ mailboxSize := by decide
  have modest : ∀ first, first <+: steps → KeepsUp (trace mailboxSize {} first) := fun first begins => by
    refine keepsUp_of_length ?_
    rw [length_trace]
    exact begins.length_le.trans (by decide)
  obtain ⟨delivered, counted, independent⟩ := messages_delivered retains modest
  have whole : front ++ [.receive "a"] <+: steps := List.prefix_rfl
  have received : ((after mailboxSize {} front).receiveKeeping mailboxSize "a").1 = some (.reload "4") := by decide
  have pages : (after mailboxSize {} front).subscribers = 2 := by decide
  have answered : answersTo "b" (trace mailboxSize {} steps) = [some (.reload "2")] := by decide
  exact ⟨retains, modest, whole, received ▸ delivered front "a" whole,
    (counted front (List.prefix_append _ _)).symm.trans pages, (independent "b").symm.trans answered⟩

end Pagewright.ReloadHub
