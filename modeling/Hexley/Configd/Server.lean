import Hexley.Configd.Store

/-!
The server of the dynamic store: its sessions, its lock, and the handlers of
the requests (configd, `_config*.c`, `_notify*.c` and `session.c`).

The handler `__SCDynamicStoreSetValue` is `setValue` here, and so on for the others.
A handler takes the state and gives a status and a state. The handlers that
change data lock the store around what they do, and the lock counts, so that
they can use each other. Only the outermost unlock commits.

Uses of an entry that is not there, a null pointer or an index of `-1` in the
source, set the flag `fault`, which stays. The history is a record of
commits, fetches and closings that the server does not keep.

The port of a session is taken from a client as it comes; how notifications
are sent, the names of sessions, and the serialisation of arguments are not
modelled. The arguments of a request are of the right type.
-/

namespace Hexley.Configd

open Lib Function

inductive Status where
  | ok
  | failed
  | invalidArgument
  | accessError
  | noKey
  | keyExists
  | locked
  | needLock
  | noStoreSession
deriving DecidableEq, Repr

/-- What is known about a session, in the array of sessions and in its store. -/
structure Session (K P : Type) where
  callerEUID : ℕ
  locked : Bool
  useSessionKeys : Bool
  keys : ListSet K
  patterns : ListSet P

/-- The entry of a session in `sessionData`. A list that is not there is empty. -/
structure Info (K : Type) where
  /-- There is a name. -/
  named : Bool
  changedKeys : List K
  sessionKeys : List K

/-- What the history has of a run. -/
inductive Event (K P : Type) where
  /-- The outermost lock was released: the keys whose data had been stored or
  removed, and what each session was watching. -/
  | committed (writes : List K) (keys : Sid → ListSet K) (patterns : Sid → ListSet P)
  | fetched (sid : Sid)
  | closed (sid : Sid)

structure State (K P D : Type) where
  tables : Tables K P D
  /-- The copies `storeData_s` and so on. -/
  saved : Tables K P D
  sessionData : Sid → Option (Info K)
  sessions : Sid → Option (Session K P)
  storeLocked : ℕ
  needsNotification : ListSet Sid
  fault : Bool
  history : List (Event K P)

namespace State

variable {K P D : Type}

def initial : State K P D :=
  { tables := .empty, saved := .empty, sessionData := fun _ => none, sessions := fun _ => none,
    storeLocked := 0, needsNotification := ∅, fault := false, history := [] }

variable (s : State K P D)

def keysOf (sid : Sid) : ListSet K :=
  match s.sessions sid with
  | some session => session.keys
  | none => ∅

def patternsOf (sid : Sid) : ListSet P :=
  match s.sessions sid with
  | some session => session.patterns
  | none => ∅

def isLocked (sid : Sid) : Bool :=
  match s.sessions sid with
  | some session => session.locked
  | none => false

def useSessionKeys (sid : Sid) : Bool :=
  match s.sessions sid with
  | some session => session.useSessionKeys
  | none => false

def changesOf (sid : Sid) : List K :=
  match s.sessionData sid with
  | some info => info.changedKeys
  | none => []

def sessionKeysOf (sid : Sid) : List K :=
  match s.sessionData sid with
  | some info => info.sessionKeys
  | none => []

def modifySession (sid : Sid) (f : Session K P → Session K P) : State K P D :=
  { s with sessions := update s.sessions sid ((s.sessions sid).map f) }

def swap : State K P D :=
  { s with tables := s.saved, saved := s.tables }

variable [DecidableEq K] [DecidableEq P]

/-! ### The lock -/

def take (sid : Sid) : State K P D :=
  { s.modifySession sid fun session => { session with locked := true } with
    storeLocked := 1
    saved := s.tables }

variable (sid : Sid)

def lock (recursive : Bool) (s : State K P D) : Status × State K P D :=
  match s.sessions sid with
  | none => (.noStoreSession, s)
  | some session =>
    if s.storeLocked > 0 then
      if session.locked && recursive then (.ok, { s with storeLocked := s.storeLocked + 1 })
      else (.locked, s)
    else if session.callerEUID ≠ 0 then (.accessError, s)
    else (.ok, s.take sid)

variable (key : K)

def notifyWatcher (r : (Sid → Option (Info K)) × ListSet Sid) (sid : Sid) :
    (Sid → Option (Info K)) × ListSet Sid :=
  let info := (r.1 sid).getD ⟨false, [], []⟩
  let newChanges := if key ∈ info.changedKeys then info.changedKeys else info.changedKeys ++ [key]
  (update r.1 sid (some { info with changedKeys := newChanges }), r.2.add sid)

/-- `_notifyWatchers`: the changed keys go to the entries of their watchers in
`sessionData`, and the watchers to `needsNotification`. -/
def notifyWatchers (t : Tables K P D)
    (r : (Sid → Option (Info K)) × ListSet Sid) : (Sid → Option (Info K)) × ListSet Sid :=
  t.changedKeys.toList.foldl
    (fun r key => (t.entry key).watchers.keys.foldl (notifyWatcher key) r) r

def cleanupRemovedSessionKey (sessionData : Sid → Option (Info K)) (removedKey : Sid × K) :
    Sid → Option (Info K) :=
  update sessionData removedKey.1 ((sessionData removedKey.1).map fun info =>
      { info with sessionKeys := info.sessionKeys.erase removedKey.2 })

def commit (s : State K P D) (sid : Sid) : State K P D :=
  let r := notifyWatchers s.tables (s.sessionData, s.needsNotification)
  let t := { s.tables with changedKeys := ∅ }.processDeferredRemovals
  { s.modifySession sid fun session => { session with locked := false } with
    tables := { t with removedSessionKeys := ∅, writes := [] }
    saved := .empty
    sessionData := t.removedSessionKeys.toList.foldl cleanupRemovedSessionKey r.1
    storeLocked := 0
    needsNotification := r.2
    history := .committed s.tables.writes s.keysOf s.patternsOf :: s.history }

def unlock (recursive : Bool) (s : State K P D) : Status × State K P D :=
  match s.sessions sid with
  | none => (.noStoreSession, s)
  | some session =>
    if s.storeLocked = 0 || !session.locked then (.needLock, s)
    else if s.storeLocked > 1 && recursive then
      (.ok, { s with storeLocked := s.storeLocked - 1 })
    else (.ok, s.commit sid)

def withLock (body : State K P D → Status × State K P D) (s : State K P D) : Status × State K P D :=
  let r := s.lock sid true
  if r.1 ≠ .ok then r
  else
    let r := body r.2
    (r.1, (r.2.unlock sid true).2)

/-! ### Data

The flag `useSessionKeys` of the session is an argument here, since
`_configadd_s` sets it for the time of one call. -/

def addSessionKey (s : State K P D) (sid : Sid) (key : K) : State K P D :=
  match s.sessionData sid with
  | none => { s with fault := true }
  | some info =>
    let newKeys :=
      if key ∈ info.sessionKeys then info.sessionKeys else info.sessionKeys ++ [key]
    { s with
      sessionData :=
        update s.sessionData sid (some { info with sessionKeys := newKeys }) }

variable (useSessionKeys : Bool)

/-- The part of `__SCDynamicStoreSetValue` that manages the session keys, with
the dictionary that is to be stored. It fails if the key exists and is not a
session key of the session. -/
def manageSessionKeys (key : K) (value : D) (s : State K P D) : Option (State K P D × Entry D) :=
  let dict := s.tables.entry key
  let newDict := { dict with data := some value }
  if useSessionKeys then
    if dict.data.isNone then some (s.addSessionKey sid key, { newDict with session := some sid })
    else if dict.session = some sid then some (s, newDict)
    else none
  else
    match dict.session with
    | none => some (s, newDict)
    | some owner =>
      if dict.data.isSome && owner ≠ sid then
        -- it is no longer a session key of the other session
        let removed := s.tables.removedSessionKeys.add (owner, key)
        some ({ s with tables := { s.tables with removedSessionKeys := removed } },
          { newDict with session := none })
      else some (s, newDict)

def setBody (key : K) (value : D) (s : State K P D) : Status × State K P D :=
  let newEntry := (s.tables.entry key).data.isNone
  match s.manageSessionKeys sid useSessionKeys key value with
  | none => (.keyExists, s)
  | some (s, newDict) => (.ok, { s with tables := s.tables.setEntry key newDict newEntry })

def setValue (key : K) (value : D) : State K P D → Status × State K P D :=
  withLock sid (setBody sid useSessionKeys key value)

def removeBody (s : State K P D) : Status × State K P D :=
  if (s.tables.entry key).data.isNone then (.noKey, s)
  else (.ok, { s with tables := s.tables.removeEntry key })

def removeValue : State K P D → Status × State K P D :=
  withLock sid (removeBody key)

def addValue (key : K) (value : D) : State K P D → Status × State K P D :=
  withLock sid fun s =>
    if (s.tables.entry key).data.isSome then (.keyExists, s)
    else s.setValue sid useSessionKeys key value

variable (env : Env K P D)

def touchValue (sid : Sid) (useSessionKeys : Bool) (key : K)
    (now : D) : State K P D → Status × State K P D :=
  withLock sid fun s =>
    let value :=
      match (s.tables.entry key).data with
      | none => now
      | some value => if env.isDate value then now else value
    (.ok, (s.setValue sid useSessionKeys key value).2)

def notifyValue (sid : Sid) (useSessionKeys : Bool) (key : K) :
    State K P D → Status × State K P D :=
  withLock sid fun s =>
    match (s.tables.entry key).data with
    | none =>
      let s := (s.setValue sid useSessionKeys key env.trueValue).2
      (.ok, (s.removeValue sid key).2)
    | some value => (.ok, (s.setValue sid useSessionKeys key value).2)

def setMultiple (sid : Sid) (useSessionKeys : Bool)
    (keysToSet : List (K × D)) (keysToRemove keysToNotify : List K) :
    State K P D → Status × State K P D :=
  withLock sid fun s =>
    let s := keysToSet.foldl (fun s kv => (s.setValue sid useSessionKeys kv.1 kv.2).2) s
    let s := keysToRemove.foldl (fun s key => (s.removeValue sid key).2) s
    let s := keysToNotify.foldl (fun s key => (s.notifyValue env sid useSessionKeys key).2) s
    (.ok, s)

/-! ### Watches -/

def addWatchedKey (s : State K P D) : Status × State K P D :=
  match s.sessions sid with
  | none => (.noStoreSession, s)
  | some session =>
    if key ∈ session.keys then (.keyExists, s)
    else
      let s := { s with tables := s.tables.addWatcher sid key }
      (.ok, s.modifySession sid fun session => { session with keys := session.keys.add key })

def addWatchedPattern (sid : Sid) (pattern : P) (s : State K P D) : Status × State K P D :=
  match s.sessions sid with
  | none => (.noStoreSession, s)
  | some session =>
    if pattern ∈ session.patterns then (.keyExists, s)
    else
      match s.tables.patternAddSession env pattern sid with
      | none => (.invalidArgument, s)
      | some tables =>
        let s := { s with tables := tables }
        (.ok, s.modifySession sid fun session =>
          { session with patterns := session.patterns.add pattern })

def removeWatchedKey (s : State K P D) : Status × State K P D :=
  match s.sessions sid with
  | none => (.noStoreSession, s)
  | some session =>
    if key ∈ session.keys then
      let s := s.modifySession sid fun session =>
        { session with keys := session.keys.remove key }
      (.ok, { s with tables := s.tables.removeWatcher sid key })
    else (.noKey, s)

def removeWatchedPattern (pattern : P) (s : State K P D) : Status × State K P D :=
  match s.sessions sid with
  | none => (.noStoreSession, s)
  | some session =>
    if pattern ∈ session.patterns then
      let s := s.modifySession sid fun session =>
        { session with patterns := session.patterns.remove pattern }
      match s.tables.patternRemoveSession pattern sid with
      | none => (.ok, { s with fault := true })
      | some tables => (.ok, { s with tables := tables })
    else (.noKey, s)

/-- A step of a loop that does nothing once there has been an error. -/
def andThen (f : State K P D → Status × State K P D)
    (r : Status × State K P D) : Status × State K P D :=
  if r.1 ≠ .ok then r else f r.2

def setNotificationKeys (sid : Sid) (keys : List K)
    (patterns : List P) (s : State K P D) : Status × State K P D :=
  match s.sessions sid with
  | none => (.noStoreSession, s)
  | some session =>
    let r := (Status.ok, s)
    let r := session.keys.toList.foldl
      (fun r oldKey => if oldKey ∈ keys then r else andThen (removeWatchedKey sid oldKey) r) r
    let r := keys.foldl
      (fun r newKey => if newKey ∈ session.keys then r else andThen (addWatchedKey sid newKey) r)
      r
    let r := session.patterns.toList.foldl (fun r oldKey =>
        if oldKey ∈ patterns then r else andThen (removeWatchedPattern sid oldKey) r) r
    patterns.foldl (fun r newKey =>
        if newKey ∈ session.patterns then r
        else andThen (addWatchedPattern env sid newKey) r) r

/-- `__SCDynamicStoreCopyNotifiedKeys`, without the keys that are returned. -/
def copyNotifiedKeys (s : State K P D) : Status × State K P D :=
  match s.sessions sid with
  | none => (.noStoreSession, s)
  | some _ =>
    let s := { s with history := .fetched sid :: s.history }
    match s.sessionData sid with
    | none => (.ok, s)
    | some info =>
      if info.changedKeys = [] then (.ok, s)
      else
        let newInfo :=
          if info.named || !info.sessionKeys.isEmpty then some { info with changedKeys := [] }
          else none
        (.ok, { s with sessionData := update s.sessionData sid newInfo })

def notifyCancel (s : State K P D) : Status × State K P D :=
  match s.sessions sid with
  | none => (.noStoreSession, s)
  | some _ => (.ok, { s with needsNotification := s.needsNotification.remove sid })

/-! ### Sessions -/

/-- The part of `_configopen` that is about the state. The port is new. -/
def configopen (callerEUID : ℕ) (useSessionKeys : Bool) (s : State K P D) : State K P D :=
  match s.sessions sid with
  | some _ => s
  | none =>
    { s with
      sessions := update s.sessions sid
        (some { callerEUID, locked := false, useSessionKeys, keys := ∅, patterns := ∅ })
      sessionData := update s.sessionData sid
        (some { (s.sessionData sid).getD ⟨false, [], []⟩ with named := true }) }

def removeAllKeys (s : State K P D) : State K P D :=
  (s.keysOf sid).toList.foldl (fun s key => (s.removeWatchedKey sid key).2) s

def removeAllPatterns (s : State K P D) : State K P D :=
  (s.patternsOf sid).toList.foldl (fun s pattern => (s.removeWatchedPattern sid pattern).2) s

/-- The keys among `keys` that belong to the session are removed. -/
def removeSessionKeys (keys : List K) (s : State K P D) : State K P D :=
  keys.foldl (fun s key =>
      if (s.tables.entry key).session = some sid then (s.removeValue sid key).2 else s) s

/-- The part of `__SCDynamicStoreClose` that removes the session keys. -/
def closeSessionKeys (s : State K P D) : State K P D :=
  match s.sessionData sid with
  | none => { s with fault := true }
  | some info =>
    if info.sessionKeys = [] then s
    else if s.storeLocked > 0 then
      let s := s.removeSessionKeys sid info.sessionKeys
      (s.swap.removeSessionKeys sid info.sessionKeys).swap
    else (s.lock sid false).2.removeSessionKeys sid info.sessionKeys

/-- `__SCDynamicStoreClose`, for a session that is there. -/
def close (s : State K P D) : State K P D :=
  let s := s.removeAllKeys sid
  let s := s.removeAllPatterns sid
  let s := (s.notifyCancel sid).2
  let s := s.closeSessionKeys sid
  if s.isLocked sid then (s.unlock sid false).2 else s

def removeSession (s : State K P D) : State K P D :=
  { s with
    sessionData := update s.sessionData sid none
    sessions := update s.sessions sid none
    history := .closed sid :: s.history }

def configclose (s : State K P D) : Status × State K P D :=
  match s.sessions sid with
  | none => (.noStoreSession, s)
  | some _ => (.ok, (s.close sid).removeSession sid)

def cleanupSession (s : State K P D) : State K P D :=
  match s.sessions sid with
  | none => s
  | some session =>
    let s := if s.storeLocked > 0 && session.locked then s.swap else s
    (s.close sid).removeSession sid

/-- `pushNotifications`. It looks up each session that has to be notified. -/
def pushNotifications : State K P D :=
  { s with
    fault := s.fault || s.needsNotification.toList.any fun sid => (s.sessions sid).isNone
    needsNotification := ∅ }

end State

/-! ### Steps -/

inductive Request (K P D : Type) where
  | close
  | lock
  | unlock
  | set (key : K) (value : D)
  | add (key : K) (value : D)
  | addSession (key : K) (value : D)
  | remove (key : K)
  | touch (key : K) (now : D)
  | notify (key : K)
  | setMultiple (keysToSet : List (K × D)) (keysToRemove keysToNotify : List K)
  | notifyAddKey (key : K)
  | notifyAddPattern (pattern : P)
  | notifyRemoveKey (key : K)
  | notifyRemovePattern (pattern : P)
  | notifySet (keys : List K) (patterns : List P)
  | notifyChanges
  | notifyCancel

/-- What the run loop can be woken by. -/
inductive Input (K P D : Type) where
  /-- A client opens a session, which gets the port `sid`. -/
  | opens (sid : Sid) (callerEUID : ℕ) (useSessionKeys : Bool)
  | request (sid : Sid) (r : Request K P D)
  /-- The client of a session has died. -/
  | dies (sid : Sid)

variable {K P D : Type} [DecidableEq K] [DecidableEq P]

variable (env : Env K P D) (s : State K P D)

open State in
def handle (sid : Sid) (s : State K P D) : Request K P D → Status × State K P D
  | .close => s.configclose sid
  | .lock => s.lock sid false
  | .unlock => s.unlock sid false
  | .set key value => s.setValue sid (s.useSessionKeys sid) key value
  | .add key value => s.addValue sid (s.useSessionKeys sid) key value
  -- `_configadd_s`
  | .addSession key value => s.addValue sid true key value
  | .remove key => s.removeValue sid key
  | .touch key now => s.touchValue env sid (s.useSessionKeys sid) key now
  | .notify key => s.notifyValue env sid (s.useSessionKeys sid) key
  | .setMultiple keysToSet keysToRemove keysToNotify =>
    s.setMultiple env sid (s.useSessionKeys sid) keysToSet keysToRemove keysToNotify
  | .notifyAddKey key => s.addWatchedKey sid key
  | .notifyAddPattern pattern => s.addWatchedPattern env sid pattern
  | .notifyRemoveKey key => s.removeWatchedKey sid key
  | .notifyRemovePattern pattern => s.removeWatchedPattern sid pattern
  | .notifySet keys patterns => s.setNotificationKeys env sid keys patterns
  | .notifyChanges => s.copyNotifiedKeys sid
  | .notifyCancel => s.notifyCancel sid

def serve : Input K P D → State K P D
  | .opens sid callerEUID useSessionKeys => s.configopen sid callerEUID useSessionKeys
  | .request sid r => (handle env sid s r).2
  | .dies sid => s.cleanupSession sid

/-- One turn of `server_loop`. -/
def step (i : Input K P D) : State K P D :=
  (serve env s i).pushNotifications

def sampleEnv : Env ℕ ℕ ℕ where
  compile pattern := some fun key => pattern ≤ key
  isDate _ := false
  trueValue := 1

end Hexley.Configd
