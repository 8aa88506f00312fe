import Cornus.Lib.Run

/-!
# The token cache of several processes

`autoStore` keeps a credential in the keyring, or in a file of the shared cache
directory once the keyring has failed the process.  Every process decides for
itself, so that two entries can stand under one key.
-/

namespace Cornus.Auth.TokenCache

open Function

/-- A token and the instant it expires, in nanoseconds. -/
structure Entry where
  token : String
  expires : Int
deriving DecidableEq

/-- A token is not handed out in its last minute. -/
def defaultMargin : Int := 60000000000

/-- The token has not expired. -/
def Entry.live (e : Entry) (now : Int) : Bool :=
  e.token ≠ "" && now < e.expires

/-- The token will not expire within the margin. -/
def Entry.usableNow (e : Entry) (now : Int) : Bool :=
  e.token ≠ "" && now + defaultMargin < e.expires

/-- An entry with the number of the call that wrote it. -/
abbrev Kept := Entry × Nat

/-- How a write of the token file ends. -/
inductive FileAnswer where
  | failed
  | renamed
  | done
deriving DecidableEq

/-- The calls of the cache. -/
inductive Call where
  | set (e : Entry)
  | get (now : Int)
  | delete

/-- A call of a process, with what the platform answers to the probe, to the
operation on the keyring, to the one on the file and to the removal of a dead entry. -/
structure Event where
  process : Nat
  key : String
  call : Call
  (probe keyring removed : Bool := true)
  file : FileAnswer := .done

/-- Both places, which processes have gone over to the file, the number of calls that
write, and for every key the first of them whose entry may still be served. -/
structure Cache where
  (keyring file : String → Option Kept := fun _ => none)
  useFile : Nat → Bool := fun _ => false
  calls : Nat := 0
  first : String → Nat := fun _ => 0

namespace Cache

variable (cache : Cache) (event : Event)

/-- Whether `backend` picks the file. -/
def backend : Bool :=
  cache.useFile event.process || !event.probe

/-- From now on the process uses the file. -/
def toFile : Cache :=
  { cache with useFile := update cache.useFile event.process true }

/-- `Set` on the file; a failure may come before or after the rename. -/
def fileSet (e : Entry) : Bool × Cache :=
  (event.file = .done,
    if event.file = .failed then cache.toFile event
    else
      { cache.toFile event with file := update cache.file event.key (some (e, cache.calls)) })

/-- `Set`: the keyring first, the file where the keyring fails. -/
def set (e : Entry) : Bool × Cache :=
  if cache.backend event then cache.fileSet event e
  else if event.keyring then
    (true, { cache with keyring := update cache.keyring event.key (some (e, cache.calls)) })
  else cache.fileSet event e

/-- `Get` of either store: the answer, and what stays. -/
def fetched (now : Int) (removed : Bool) : Option Kept → Option Kept × Option Kept
  | none => (none, none)
  | some kept =>
    if kept.1.live now then (if kept.1.usableNow now then some kept else none, some kept)
    else (none, if removed then none else some kept)

/-- `Get`, which drops an entry that has expired. -/
def get (now : Int) : Option Kept × Cache :=
  if cache.backend event then
    let (answer, stays) := fetched now event.removed (cache.file event.key)
    (answer, { cache.toFile event with file := update cache.file event.key stays })
  else if event.keyring then
    let (answer, stays) := fetched now event.removed (cache.keyring event.key)
    (answer, { cache with keyring := update cache.keyring event.key stays })
  else (none, cache)

/-- `Delete`, on the keyring and on the file. -/
def delete : Bool × Cache :=
  ((event.keyring || cache.useFile event.process) && event.file = .done,
    { cache with
      keyring := if event.keyring then update cache.keyring event.key none else cache.keyring
      file := if event.file = .done then update cache.file event.key none else cache.file })

/-- A call that writes is counted; one that succeeds outdates what was written before. -/
def counted (result : Bool × Cache) : Cache :=
  { result.2 with
    calls := cache.calls + 1
    first := if result.1 then update cache.first event.key cache.calls else cache.first }

/-- One call: the entry it returns, and the cache it leaves. -/
def step : Option Kept × Cache :=
  match event.call with
  | .set e => (none, cache.counted event (cache.set event e))
  | .get now => cache.get event now
  | .delete => (none, cache.counted event (cache.delete event))

/-- No call leaves an entry in the place it does not write: a `Set` finds the other place
empty, and so does a `Delete` whose error goes unreported. -/
def careful : Bool :=
  match event.call with
  | .set _ =>
    (if !cache.backend event && event.keyring then cache.file event.key
      else cache.keyring event.key).isNone
  | .get _ => true
  | .delete =>
    !cache.useFile event.process || event.keyring || (cache.keyring event.key).isNone

end Cache

/-- What a place keeps may still be served. -/
def Current (first : String → Nat) (place : String → Option Kept) : Prop :=
  ∀ key kept, place key = some kept → first key ≤ kept.2

theorem Current.put (current : Current first place)
    (here : ∀ kept, slot = some kept → first key ≤ kept.2) :
    Current first (update place key slot) := by
  intro other kept held
  obtain ⟨rfl, put⟩ | ⟨_, held⟩ := Lib.update_eq_iff.mp held
  · exact here kept put
  · exact current other kept held

/-- No kept entry is older than the first one still in force. -/
structure Cache.Fresh (cache : Cache) : Prop where
  bound : ∀ key, cache.first key ≤ cache.calls
  keyring : Current cache.first cache.keyring
  file : Current cache.first cache.file

/-- A call that writes keeps what may be served, and only its own entry if it succeeds. -/
structure Cache.Lands (cache : Cache) (key : String) (result : Bool × Cache) : Prop where
  keyring : Current cache.first result.2.keyring
  file : Current cache.first result.2.file
  only : result.1 = true → ∀ kept, result.2.keyring key = some kept ∨
    result.2.file key = some kept → cache.calls ≤ kept.2

variable {cache : Cache} {event : Event}

theorem Cache.Fresh.counted (fresh : cache.Fresh) (lands : cache.Lands event.key result) :
    (cache.counted event result).Fresh := by
  obtain ⟨keyring, file, only⟩ := lands
  have bound : ∀ key, cache.first key ≤ cache.calls + 1 := fun key =>
    Nat.le_succ_of_le (fresh.bound key)
  unfold Cache.counted
  split_ifs with ok
  · constructor <;> grind [Current]
  · exact ⟨bound, keyring, file⟩

theorem Cache.Fresh.set_lands (fresh : cache.Fresh) (call : event.call = .set e)
    (careful : cache.careful event) : cache.Lands event.key (cache.set event e) := by
  rw [Cache.careful, call] at careful
  have put := fun place current => @Current.put cache.first place (some (e, cache.calls)) event.key
    current fun kept same => Option.some.inj same ▸ fresh.bound event.key
  obtain ⟨bound, keyring, file⟩ := fresh
  unfold Cache.set fileSet toFile
  split_ifs <;> constructor <;> grind

theorem Cache.Fresh.delete_lands (fresh : cache.Fresh) (call : event.call = .delete)
    (careful : cache.careful event) : cache.Lands event.key (cache.delete event) := by
  rw [Cache.careful, call] at careful
  obtain ⟨bound, keyring, file⟩ := fresh
  unfold Cache.delete
  constructor <;> grind [Current]

theorem fetched_some (found : (Cache.fetched now removed slot).1 = some kept ∨
    (Cache.fetched now removed slot).2 = some kept) : slot = some kept := by
  unfold Cache.fetched at found
  grind

theorem Cache.Fresh.get (fresh : cache.Fresh) (now : Int) : (cache.get event now).2.Fresh ∧
    ∀ kept, (cache.get event now).1 = some kept → cache.first event.key ≤ kept.2 := by
  obtain ⟨bound, keyring, file⟩ := fresh
  unfold Cache.get toFile
  split_ifs
  · exact ⟨⟨bound, keyring, file.put fun _ stays => file _ _ (fetched_some (.inr stays))⟩,
      fun _ found => file _ _ (fetched_some (.inl found))⟩
  · exact ⟨⟨bound, keyring.put fun _ stays => keyring _ _ (fetched_some (.inr stays)), file⟩,
      fun _ found => keyring _ _ (fetched_some (.inl found))⟩
  · exact ⟨⟨bound, keyring, file⟩, fun kept found => by cases found⟩

/-- Every careful call keeps the cache fresh. -/
theorem Cache.Fresh.step (fresh : cache.Fresh) (careful : cache.careful event) :
    (cache.step event).2.Fresh := by
  unfold Cache.step
  cases call : event.call with
  | set e => exact fresh.counted (fresh.set_lands call careful)
  | get now => exact (fresh.get now).1
  | delete => exact fresh.counted (fresh.delete_lands call careful)

/-- The state after an event. -/
def Cache.next (cache : Cache) (event : Event) : Option Cache :=
  some (cache.step event).2

/-- In a careful run no call returns an entry older than the last successful `Set`
of its key, or one from before a successful `Delete`. -/
theorem careful_fresh (events : List Event) (event : Event) (final : Cache) (kept : Kept)
    (careful : Lib.Along Cache.next (fun cache event => cache.careful event) {} events)
    (reached : Lib.run Cache.next {} events = some final)
    (served : (final.step event).1 = some kept) : final.first event.key ≤ kept.2 := by
  have fresh : final.Fresh := by
    refine Lib.run_invariant (fun cache event next fresh careful taken => ?_) ?_ careful reached
    · obtain rfl := Option.some.inj taken
      exact fresh.step careful
    · have empty : Current (fun _ => 0) fun _ => none := fun _ _ held => by cases held
      exact ⟨fun _ => Nat.le_refl _, empty, empty⟩
  unfold Cache.step at served
  cases call : event.call with
  | get now => exact (fresh.get now).2 kept (by simpa only [call] using served)
  | set e => simp [call] at served
  | delete => simp [call] at served

def oldEntry : Entry := ⟨"old", 100000000000⟩
def newEntry : Entry := ⟨"new", 100000000000⟩

/-- The keyring refuses the second process' write. -/
def refusedSet : Event := ⟨1, "key", .set newEntry, true, false, true, .done⟩

theorem refused_fresh : ∃ final, Lib.run Cache.next {} [refusedSet] = some final ∧
    final.first "key" ≤ 0 :=
  ⟨_, rfl, careful_fresh [refusedSet] ⟨1, "key", .get 0, true, true, true, .done⟩ _ (newEntry, 0)
    (by decide +kernel) rfl (by decide +kernel)⟩

/-- The older entry stays in the keyring, and the next process is served it. -/
theorem refused_stale :
    (Lib.run Cache.next {} [⟨0, "key", .set oldEntry, true, true, true, .done⟩, refusedSet]).map
      (fun cache => ((cache.step ⟨2, "key", .get 0, true, true, true, .done⟩).1,
        cache.first "key")) = some (some (oldEntry, 0), 1) := by
  decide +kernel

end Cornus.Auth.TokenCache
