import Mathlib.Data.List.AList
import VisitLogger.Host
import VisitLogger.Runs

/-!
# The extension's background script

`background.js` is a set of listeners around two maps: the visits that wait for
a title, and the icons of the tabs. A step is one callback of the browser. The
replies of `tabs.get` and of the native host, the title updates and the timers
come in any order.
-/

namespace VisitLogger

namespace Background

/-! ## Icons -/

inductive Color where
  | gray
  | orange
  | yellow
  | green
  deriving DecidableEq, Repr

/-- What the host answers about a URL; a list that is not an array is `none`. -/
structure Record where
  read : Option (List Text)
  skimmed : Option (List Text)
  ofInterest : Bool
  deriving DecidableEq, Repr

def isFilled (events : Option (List Text)) : Bool := events.any fun es => 0 < es.length

def pickIconColor (record : Option Record) : Color :=
  match record with
  | none => .gray
  | some r =>
    if isFilled r.read then .green
    else if isFilled r.skimmed then .yellow
    else if r.ofInterest then .orange
    else .gray

/-- What `sendNativeMessage` calls back with. -/
inductive Response where
  | lastError (message : Text)
  | none
  | message (status : Text) (message : Option Text) (record : Option Record)
  deriving DecidableEq, Repr

def nativeQueryError : Response → Option Text
  | .lastError message => some message
  | .none => some (ascii "no response")
  | .message status message _ =>
    if status ≠ ascii "ok" then
      match message with
      | some m => some (if m = [] then ascii "non-ok status" else m)
      | .none => some (ascii "non-ok status")
    else .none

def Response.record : Response → Option Record
  | .message _ _ record => record
  | _ => .none

/-- `/^https?:/i` -/
def isHttp (url : Text) : Bool :=
  let lower := url.map fun b => if 65 ≤ b ∧ b ≤ 90 then b + 32 else b
  (ascii "http:").isPrefixOf lower || (ascii "https:").isPrefixOf lower

/-- Where a refresh is: at its first query, in the wait after it, at the second
query, or done, with the colour that it set. -/
inductive Phase where
  | query
  | wait
  | retry
  | done (color : Option Color)
  deriving DecidableEq, Repr

/-- A call of `refreshIconForTab`; `before` is the icon that it met. -/
structure Refresh where
  tabId : Nat
  url : Option Text
  before : Option Color
  phase : Phase
  deriving DecidableEq, Repr

/-- The icon of each tab, if one was set, and the refreshes in the order of their calls. -/
structure Icons where
  icon : AList fun _ : Nat => Color
  refreshes : List Refresh

namespace Icons

def setIconForTab (s : Icons) (tabId : Nat) (color : Color) : Icons :=
  { s with icon := s.icon.insert tabId color }

def refreshIconForTab (s : Icons) (tabId : Nat) (url : Option Text) : Icons :=
  let refresh : Phase → Icons := fun phase =>
    { s with refreshes := s.refreshes ++ [⟨tabId, url, s.icon.lookup tabId, phase⟩] }
  match url with
  | none => (refresh (.done (some .gray))).setIconForTab tabId .gray
  | some u => if isHttp u then refresh .query else (refresh (.done (some .gray))).setIconForTab tabId .gray

def setPhase (s : Icons) (n : Nat) (phase : Phase) : Icons :=
  { s with refreshes := s.refreshes.modify n fun r => { r with phase } }

/-- The callback of a query. An error is followed by a second query, 300 ms later. -/
def queried (s : Icons) (n : Nat) (response : Response) : Option Icons :=
  s.refreshes[n]?.bind fun r =>
    let color := pickIconColor response.record
    match r.phase, nativeQueryError response with
    | .query, none | .retry, none => some ((s.setPhase n (.done (some color))).setIconForTab r.tabId color)
    | .query, some _ => some (s.setPhase n .wait)
    | .retry, some _ => some (s.setPhase n (.done none))
    | _, _ => none

def retryDue (s : Icons) (n : Nat) : Option Icons :=
  s.refreshes[n]?.bind fun r => if r.phase = .wait then some (s.setPhase n .retry) else none

end Icons

/-! ## Visits -/

/-- A main-frame navigation, as `handleNavigation` was called for it, with the title
that its `tabs.get` returned (`none` inside for a `lastError`) and the title updates
of its tab up to the next navigation. The script does not keep them. -/
structure Navigation where
  tabId : Nat
  url : Text
  timestamp : Text
  reply : Option (Option Text)
  updates : List Text
  deriving DecidableEq, Repr

/-- An entry of `pendingVisits`, for the navigation of that number. -/
structure Entry where
  navigation : Nat
  url : Text
  title : Text
  timestamp : Text
  timerId : Nat
  deriving DecidableEq, Repr

/-- A message to the native host, about the navigation of that number. -/
structure Message where
  navigation : Nat
  timestamp : Text
  url : Text
  title : Text
  deriving DecidableEq, Repr

/-- `timers` has the tab of each timeout that is set; `superseded` has the
navigations whose entry was replaced, with those of the new entries. -/
structure Visits where
  navigations : List Navigation
  pendingVisits : AList fun _ : Nat => Entry
  timers : AList fun _ : Nat => Nat
  nextTimer : Nat
  sent : List Message
  superseded : List (Nat × Nat)

/-- The characters that `trim` takes off. -/
def whiteSpace : List Text :=
  BVLHost.whitespaces ++ [[0x0A], [0x0B], [0x0C], [0x0D], [0xE2, 0x80, 0xA8], [0xE2, 0x80, 0xA9],
    [0xEF, 0xBB, 0xBF]]

/-- `title.trim() === ''` -/
def isBlank (title : Text) : Bool := (BVLHost.runes title).all whiteSpace.contains

namespace Visits

variable (hostname : Text → Option Text)

/-- `hostname` is that of `new URL(url)`, or `none` where this throws. -/
def isTitleMeaningful (title url : Text) : Bool :=
  if title = [] || isBlank title then false
  else
    match hostname url with
    | none => true
    | some h => title ≠ h && title ≠ url

def send (s : Visits) (m : Message) : Visits := { s with sent := s.sent ++ [m] }

def flushVisit (s : Visits) (tabId : Nat) : Visits :=
  match s.pendingVisits.lookup tabId with
  | none => s
  | some entry =>
    { s with
      pendingVisits := s.pendingVisits.erase tabId
      timers := s.timers.erase entry.timerId }.send
      ⟨entry.navigation, entry.timestamp, entry.url,
        if isTitleMeaningful hostname entry.title entry.url then entry.title else entry.url⟩

/-- `handleNavigation` up to its `tabs.get`. -/
def navigate (s : Visits) (tabId : Nat) (url timestamp : Text) : Visits :=
  { s with navigations := s.navigations ++ [⟨tabId, url, timestamp, none, []⟩] }

/-- A visit without a title waits for one, in the place of the visit of its tab that waits. -/
def park (s : Visits) (n : Nat) (v : Navigation) (title : Text) : Visits :=
  let old := s.pendingVisits.lookup v.tabId
  let timers := match old with
    | some entry => s.timers.erase entry.timerId
    | none => s.timers
  { s with
    pendingVisits := s.pendingVisits.insert v.tabId ⟨n, v.url, title, v.timestamp, s.nextTimer⟩
    timers := timers.insert s.nextTimer v.tabId
    nextTimer := s.nextTimer + 1
    superseded := s.superseded ++ (old.map fun entry => (entry.navigation, n)).toList }

/-- The callback of the `tabs.get` of navigation `n`; a tab without a title has the empty one. -/
def gotTab (s : Visits) (n : Nat) (title : Option Text) : Option Visits :=
  s.navigations[n]?.bind fun v =>
    if v.reply = none then
      let s := { s with navigations := s.navigations.modify n fun v => { v with reply := some title } }
      match title with
      | none => some s
      | some title =>
        if isTitleMeaningful hostname title v.url then some (s.send ⟨n, v.timestamp, v.url, title⟩)
        else some (s.park n v title)
    else none

def current (s : Visits) (tabId : Nat) : Option Nat :=
  s.navigations.findIdxs (fun v => v.tabId = tabId) |>.getLast?

def noteTitle (s : Visits) (tabId : Nat) (title : Text) : Visits :=
  match s.current tabId with
  | none => s
  | some n => { s with navigations := s.navigations.modify n fun v =>
      { v with updates := v.updates ++ [title] } }

/-- The listener of `tabs.onUpdated`. -/
def onUpdated (s : Visits) (tabId : Nat) (title : Text) : Visits :=
  if title = [] then s
  else
    match s.pendingVisits.lookup tabId with
    | none => s
    | some entry =>
      if isTitleMeaningful hostname title entry.url then
        { s with pendingVisits := s.pendingVisits.insert tabId { entry with title } }.flushVisit hostname tabId
      else s

/-- A timeout that is set fires. -/
def timeout (s : Visits) (timerId : Nat) : Option Visits :=
  (s.timers.lookup timerId).map fun tabId =>
    { s with timers := s.timers.erase timerId }.flushVisit hostname tabId

end Visits

/-! ## The listeners -/

structure State where
  visits : Visits
  icons : Icons

/-- A callback of the browser. `activated` is that of the `tabs.get` of `onActivated`,
for a tab that is there, and `refreshIcon` a message of the popup. -/
inductive Act where
  | navigate (frameId tabId : Nat) (url timestamp : Text)
  | gotTab (n : Nat) (title : Option Text)
  | updated (tabId : Nat) (title : Text)
  | timeout (timerId : Nat)
  | activated (tabId : Nat) (url : Option Text)
  | refreshIcon (tabId : Nat) (url : Option Text)
  | queried (n : Nat) (response : Response)
  | retryDue (n : Nat)
  deriving DecidableEq, Repr

def step (hostname : Text → Option Text) (s : State) : Act → Option State
  | .navigate frameId tabId url timestamp =>
    -- an iframe is not logged
    if frameId ≠ 0 then some s
    else some ⟨s.visits.navigate tabId url timestamp, s.icons.refreshIconForTab tabId (some url)⟩
  | .gotTab n title => (s.visits.gotTab hostname n title).map fun visits => { s with visits }
  | .updated tabId title => some { s with visits :=
      (s.visits.noteTitle tabId title).onUpdated hostname tabId title }
  | .timeout timerId => (s.visits.timeout hostname timerId).map fun visits => { s with visits }
  | .activated tabId url | .refreshIcon tabId url =>
      some { s with icons := s.icons.refreshIconForTab tabId url }
  | .queried n response => (s.icons.queried n response).map fun icons => { s with icons }
  | .retryDue n => (s.icons.retryDue n).map fun icons => { s with icons }

def State.init : State := ⟨⟨[], ∅, ∅, 0, [], []⟩, ⟨∅, []⟩⟩

end Background

end VisitLogger
