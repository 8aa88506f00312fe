import Cornus.Lib.Dict

/-!
# A table kept from a list and a watch

A table is filled from one listing of a store and kept up to date by the events
of a watch that begins later.  The watch reports every object that is there when
it begins and every change after that.  An object of the listing that is gone
when the watch begins is reported by neither: it stays in the table until an
object of its name appears again.  When all events are delivered, these are
exactly the entries the table has too many.
-/

namespace Cornus.Mirror

open AList Option List Dict

inductive Event (Record : Type) where
  | set (record : Record)
  | gone (record : Record)
  deriving DecidableEq

/-- The objects of a store by name, and what a watch has still to report. -/
structure Feed (Record : Type) where
  objects : Dict Record := ∅
  watching : Bool := false
  events : List (Event Record) := []
  /-- The listed objects of which no event tells. -/
  stale : Dict Record := ∅

namespace Feed

variable {Record : Type} (feed : Feed Record) (name : String) (record : Record)

def put : Feed Record :=
  if feed.watching then
    { feed with
      objects := feed.objects.insert name record,
      events := feed.events ++ [.set record], stale := feed.stale.erase name }
  else { feed with objects := feed.objects.insert name record }

def remove : Feed Record :=
  match feed.objects.lookup name with
  | none => feed
  | some record =>
    if feed.watching then
      { feed with objects := feed.objects.erase name, events := feed.events ++ [.gone record] }
    else { feed with objects := feed.objects.erase name }

def list (listing : Dict Record) : Feed Record :=
  { feed with stale := listing }

def watch : Feed Record :=
  { feed with
    watching := true
    events := feed.objects.entries.map fun entry => .set entry.2
    stale := feed.stale.restrict fun name =>
      (feed.objects.lookup name).isNone }

theorem put_watching : (feed.put name record).watching = feed.watching := by
  unfold put
  split <;> rfl

theorem remove_watching : (feed.remove name).watching = feed.watching := by
  unfold remove
  split
  · rfl
  · split <;> rfl

end Feed

/-- How records are filed: the entry of the table a record belongs to, what the
table keeps of it, and the name of the object of an entry.  The records that are
written all have entries that their names determine. -/
structure Schema (Record Key Value : Type) where
  key : Record → Key
  value : Record → Value
  name : Key → String
  Good : Record → Prop
  unique : ∀ {record other : Record}, Good record → Good other →
    name (key record) = name (key other) → key record = key other

variable {Record Key Value : Type} (schema : Schema Record Key Value)

/-- Every record is a written one and has the name of its entry. -/
def Filed (objects : Dict Record) : Prop :=
  ∀ name record, objects.lookup name = some record →
    schema.Good record ∧ schema.name (schema.key record) = name

section Filing

variable {schema} {objects : Dict Record} {record : Record} {name : String}

theorem Filed.empty : Filed schema ∅ := by
  intro name record found
  cases found

theorem Filed.insert (filed : Filed schema objects) (good : schema.Good record)
    (named : schema.name (schema.key record) = name) :
    Filed schema (objects.insert name record) := by
  intro other found there
  rcases lookup_insert_eq_some_iff.mp there with ⟨rfl, rfl⟩ | ⟨_, there⟩
  · exact ⟨good, named⟩
  · exact filed _ _ there

theorem Filed.erase (filed : Filed schema objects) : Filed schema (objects.erase name) := by
  intro other found there
  exact filed _ _ (lookup_erase_eq_some_iff.mp there).2

theorem Filed.restrict (filed : Filed schema objects) (wanted : String → Bool) :
    Filed schema (objects.restrict wanted) := by
  intro other found there
  rw [lookup_restrict] at there
  split at there
  · exact filed _ _ there
  · cases there

def records (objects : Dict Record) : List Record :=
  objects.entries.map Sigma.snd

theorem lookup_of_mem_records (filed : Filed schema objects) (mem : record ∈ records objects) :
    objects.lookup (schema.name (schema.key record)) = some record := by
  obtain ⟨⟨name, held⟩, among, rfl⟩ := mem_map.mp mem
  have there : objects.lookup name = some held := mem_lookup_iff.mpr among
  rw [(filed _ _ there).2]
  exact there

theorem nodup_records (filed : Filed schema objects) :
    ((records objects).map schema.key).Nodup := by
  apply List.Nodup.of_map schema.name
  have names : ((records objects).map schema.key).map schema.name = objects.keys := by
    rw [records, List.map_map, List.map_map]
    apply map_congr_left
    intro entry among
    exact (filed _ _ (mem_lookup_iff.mpr among)).2
  rw [names]
  exact objects.keys_nodup

end Filing

variable [DecidableEq Key] (view : Key → Option Value)

def notice : Event Record → Key → Option Value
  | .set record =>
    Function.update view (schema.key record) (some (schema.value record))
  | .gone record => Function.update view (schema.key record) none

variable (events : List (Event Record))

def settle : Key → Option Value :=
  events.foldl (notice schema) view

def shown (objects : Dict Record) (key : Key) : Option Value :=
  ((objects.lookup (schema.name key)).filter fun record => schema.key record = key).map schema.value

variable {schema} {objects : Dict Record} {record : Record} {name : String} {key : Key}

theorem shown_eq_some : shown schema objects key = some value ↔
      ∃ record, objects.lookup (schema.name key) = some record ∧
        schema.key record = key ∧ schema.value record = value := by
  simp [shown, filter_eq_some_iff, and_assoc]

section

variable (filed : Filed schema objects) (good : schema.Good record)
include filed good

theorem shown_key : shown schema objects (schema.key record) =
      (objects.lookup (schema.name (schema.key record))).map schema.value := by
  unfold shown
  cases found : objects.lookup (schema.name (schema.key record)) with
  | none => rfl
  | some other =>
    obtain ⟨otherGood, named⟩ := filed _ _ found
    rw [filter_some, if_pos]
    exact decide_eq_true (schema.unique otherGood good named)

theorem shown_eq_none (named : schema.name key = schema.name (schema.key record))
    (other : key ≠ schema.key record) : shown schema objects key = none := by
  rw [eq_none_iff_forall_ne_some]
  intro value found
  obtain ⟨held, there, same, _⟩ := shown_eq_some.mp found
  obtain ⟨heldGood, _⟩ := filed _ _ there
  apply other
  rw [← same] at named ⊢
  exact schema.unique heldGood good named

theorem shown_insert
    (named : schema.name (schema.key record) = name) : shown schema (objects.insert name record) =
      Function.update (shown schema objects) (schema.key record) (some (schema.value record)) := by
  funext key
  by_cases same : key = schema.key record
  · rw [same, Function.update_self]
    exact shown_eq_some.mpr ⟨record, by rw [named, lookup_insert], rfl, rfl⟩
  · rw [Function.update_of_ne same]
    by_cases here : schema.name key = name
    · rw [shown_eq_none filed good (here.trans named.symm) same]
      exact shown_eq_none (filed.insert good named) good (here.trans named.symm) same
    · unfold shown
      rw [lookup_insert_ne here]

theorem shown_erase
    (named : schema.name (schema.key record) = name) : shown schema (objects.erase name) =
      Function.update (shown schema objects) (schema.key record) none := by
  funext key
  by_cases same : key = schema.key record
  · rw [same, Function.update_self, shown, named, lookup_erase]
    rfl
  · rw [Function.update_of_ne same]
    by_cases here : schema.name key = name
    · rw [shown_eq_none filed good (here.trans named.symm) same]
      exact shown_eq_none filed.erase good (here.trans named.symm) same
    · unfold shown
      rw [lookup_erase_ne here]

end

variable (schema) in
/-- The table of a watched store, once every event is told: what is in the
store, and the stale entries. -/
structure Tracks (feed : Feed Record) (view : Key → Option Value) : Prop where
  watching : feed.watching = true
  objects : Filed schema feed.objects
  stale : Filed schema feed.stale
  apart : ∀ {name}, name ∈ feed.stale → name ∉ feed.objects
  settled : ∀ key, settle schema view feed.events key =
    (shown schema feed.objects key).or (shown schema feed.stale key)

section Steps

variable {feed : Feed Record} {view : Key → Option Value}

theorem settle_concat (event : Event Record) :
    settle schema view (events ++ [event]) = notice schema (settle schema view events) event := by
  rw [settle, foldl_append]
  rfl

theorem Tracks.put (tracks : Tracks schema feed view) (good : schema.Good record)
    (named : schema.name (schema.key record) = name) :
    Tracks schema (feed.put name record) view := by
  rw [Feed.put, if_pos tracks.watching]
  refine ⟨tracks.watching, tracks.objects.insert good named, tracks.stale.erase, ?_, ?_⟩
  · intro other old new
    obtain ⟨ne, old⟩ := mem_erase.mp old
    rcases (mem_insert _).mp new with same | older
    · exact ne same
    · exact tracks.apart old older
  · intro key
    simp only [settle_concat, notice, shown_insert tracks.objects good named,
      shown_erase tracks.stale good named]
    by_cases same : key = schema.key record
    · rw [same, Function.update_self, Function.update_self, some_or]
    · rw [Function.update_of_ne same, Function.update_of_ne same, Function.update_of_ne same]
      exact tracks.settled key

theorem Tracks.remove (tracks : Tracks schema feed view) (name : String) :
    Tracks schema (feed.remove name) view := by
  unfold Feed.remove
  split
  · exact tracks
  rename_i record there
  obtain ⟨good, named⟩ := tracks.objects _ _ there
  rw [if_pos tracks.watching]
  refine ⟨tracks.watching, tracks.objects.erase, tracks.stale, ?_, ?_⟩
  · intro other old kept
    exact tracks.apart old (mem_erase.mp kept).2
  · intro key
    simp only [settle_concat, notice, shown_erase tracks.objects good named]
    by_cases same : key = schema.key record
    · have absent : feed.stale.lookup name = none := by
        rw [lookup_eq_none]
        intro old
        exact tracks.apart old (lookup_isSome.mp (isSome_of_eq_some there))
      rw [same, Function.update_self, Function.update_self, none_or, shown, named, absent]
      rfl
    · rw [Function.update_of_ne same, Function.update_of_ne same]
      exact tracks.settled key

variable {event : Event Record} {rest : List (Event Record)} {listing : Dict Record}

theorem Tracks.deliver (tracks : Tracks schema feed view) (next : feed.events = event :: rest) :
    Tracks schema { feed with events := rest } (notice schema view event) := by
  refine { tracks with settled := ?_ }
  intro key
  have settled := tracks.settled key
  rw [next] at settled
  exact settled

theorem settle_sets {records : List Record}
    (distinct : (records.map schema.key).Nodup) (key : Key) :
    settle schema view (records.map .set) key =
      ((records.find? fun record => schema.key record = key).map schema.value).or (view key) := by
  induction records generalizing view with
  | nil => rfl
  | cons record rest ih =>
    obtain ⟨fresh, distinct⟩ := nodup_cons.mp distinct
    have step : settle schema view ((record :: rest).map .set) key =
        settle schema (notice schema view (.set record)) (rest.map .set) key :=
      rfl
    rw [step, ih distinct, find?_cons]
    by_cases same : schema.key record = key
    · have absent : rest.find? (fun record => schema.key record = key) = none := by
        rw [find?_eq_none]
        intro other mem again
        apply fresh
        rw [same, ← of_decide_eq_true again]
        exact mem_map_of_mem mem
      simp [absent, same, notice]
    · simp [same, notice, Function.update_of_ne (Ne.symm same)]

theorem find_records (filed : Filed schema objects) (key : Key) :
    ((records objects).find? fun record => schema.key record = key).map
      schema.value = shown schema objects key := by
  cases found : (records objects).find? fun record => schema.key record = key with
  | none =>
    symm
    rw [map_none, eq_none_iff_forall_ne_some]
    intro value holds
    obtain ⟨record, there, same, _⟩ := shown_eq_some.mp holds
    rw [find?_eq_none] at found
    apply found record
    · exact mem_map_of_mem (mem_lookup_iff.mp there)
    · exact decide_eq_true same
  | some record =>
    symm
    have same : schema.key record = key := by
      simpa using find?_some found
    refine shown_eq_some.mpr ⟨record, ?_, same, rfl⟩
    rw [← same]
    exact lookup_of_mem_records filed (mem_of_find?_eq_some found)

theorem Tracks.watch (objects : Filed schema feed.objects) (stale : Filed schema feed.stale)
    (filled : ∀ key, view key = shown schema feed.stale key) : Tracks schema feed.watch view := by
  refine ⟨rfl, objects, stale.restrict _, ?_, ?_⟩
  · intro name old
    have there := lookup_isSome.mpr old
    simp only [Feed.watch, lookup_restrict] at there
    split at there
    · rename_i absent
      exact lookup_eq_none.mp (isNone_iff_eq_none.mp absent)
    · cases there
  · intro key
    have events : feed.watch.events = (records feed.objects).map .set := by
      rw [records, List.map_map]
      rfl
    rw [events, settle_sets (nodup_records objects), find_records objects, filled key]
    change (shown schema feed.objects key).or _ = (shown schema feed.objects key).or _
    cases here : shown schema feed.objects key with
    | some value => rfl
    | none =>
      rw [none_or, none_or]
      apply Option.ext
      intro value
      rw [shown_eq_some, shown_eq_some]
      constructor
      · intro listed
        obtain ⟨record, there, same, shows⟩ := listed
        obtain ⟨good, named⟩ := stale _ _ there
        have absent : feed.objects.lookup (schema.name key) = none := by
          have here : shown schema feed.objects (schema.key record) = none := same ▸ here
          rw [shown_key objects good, named] at here
          exact map_eq_none_iff.mp here
        refine ⟨record, ?_, same, shows⟩
        rw [Feed.watch, lookup_restrict, absent]
        exact there
      · intro kept
        obtain ⟨record, there, same, shows⟩ := kept
        rw [Feed.watch, lookup_restrict] at there
        split at there
        · exact ⟨record, there, same, shows⟩
        · cases there

/-- Once every event is told, the table shows the store exactly when no stale
entry is left. -/
theorem Tracks.exact_iff (tracks : Tracks schema feed view) (told : feed.events = []) :
    (∀ key, view key = shown schema feed.objects key) ↔ feed.stale = ∅ := by
  have settled := tracks.settled
  rw [told] at settled
  change ∀ key, view key = _ at settled
  constructor
  · intro exact
    apply AList.ext
    apply eq_nil_iff_forall_not_mem.mpr
    intro entry among
    obtain ⟨name, record⟩ := entry
    have there : feed.stale.lookup name = some record := mem_lookup_iff.mpr among
    have old : name ∈ feed.stale := lookup_isSome.mp (isSome_of_eq_some there)
    obtain ⟨good, named⟩ := tracks.stale _ _ there
    have shows := (exact (schema.key record)).symm.trans (settled (schema.key record))
    rw [shown_key tracks.objects good, shown_key tracks.stale good, named,
      there, lookup_eq_none.mpr (tracks.apart old)] at shows
    cases shows
  · intro none key
    rw [settled key, none]
    cases shown schema feed.objects key <;> rfl

variable (schema) in
/-- A table and the store it is kept from, before and after the watch begins;
`filled` tells whether the listing has been stored in the table. -/
structure Follows (feed : Feed Record) (view : Key → Option Value) (filled : Bool) : Prop where
  objects : Filed schema feed.objects
  stale : Filed schema feed.stale
  idle : feed.watching = false → feed.events = []
  listing : feed.watching = false → filled = true → ∀ key, view key = shown schema feed.stale key
  tracks : feed.watching = true → Tracks schema feed view

theorem Tracks.follows (tracks : Tracks schema feed view) : Follows schema feed view filled := by
  have on : feed.watching ≠ false := by
    rw [tracks.watching]
    exact Bool.true_eq_false.mp
  exact ⟨tracks.objects, tracks.stale, fun idle => absurd idle on,
    fun idle => absurd idle on, fun _ => tracks⟩

theorem Follows.put (follows : Follows schema feed view filled) (good : schema.Good record)
    (named : schema.name (schema.key record) = name) :
    Follows schema (feed.put name record) view filled := by
  cases watching : feed.watching with
  | true =>
    exact ((follows.tracks watching).put good named).follows
  | false =>
    rw [Feed.put, if_neg (by simp [watching])]
    exact { follows with
      objects := follows.objects.insert good named
      tracks := fun on => absurd (watching.symm.trans on) Bool.false_ne_true }

theorem Follows.remove (follows : Follows schema feed view filled)
    (name : String) : Follows schema (feed.remove name) view filled := by
  cases watching : feed.watching with
  | true =>
    exact ((follows.tracks watching).remove name).follows
  | false =>
    unfold Feed.remove
    split
    · exact follows
    rw [if_neg (by simp [watching])]
    exact { follows with
      objects := follows.objects.erase
      tracks := fun on => absurd (watching.symm.trans on) Bool.false_ne_true }

theorem Follows.watch (follows : Follows schema feed view true)
    (watching : feed.watching = false) : Follows schema feed.watch view true := by
  have tracks := Tracks.watch follows.objects follows.stale (follows.listing watching rfl)
  exact tracks.follows

theorem Follows.deliver (follows : Follows schema feed view filled)
    (next : feed.events = event :: rest) :
    Follows schema { feed with events := rest } (notice schema view event) filled := by
  have watching : feed.watching = true := by
    cases idle : feed.watching with
    | true => rfl
    | false =>
      rw [follows.idle idle] at next
      cases next
  exact ((follows.tracks watching).deliver next).follows

theorem Follows.list (follows : Follows schema feed view filled)
    (watching : feed.watching = false) (filed : Filed schema listing) {next : Key → Option Value}
    (shows : ∀ key, next key = shown schema listing key) :
    Follows schema (feed.list listing) next true :=
  ⟨follows.objects, filed, follows.idle, fun _ _ => shows,
    fun on => absurd (watching.symm.trans on) Bool.false_ne_true⟩

theorem settle_listing (filed : Filed schema listing) (key : Key) :
    settle schema (fun _ => none) ((records listing).map .set) key = shown schema listing key := by
  rw [settle_sets (nodup_records filed), find_records filed, or_none]

end Steps

end Cornus.Mirror
