import Cornus.Hub.RedisStore
import Mathlib.Data.List.Perm.Basic

/-!
# The shared hashes follow the owned table

A provider that is not in the queue has in the shared hashes what the owned table
wants for it, and one in the queue has there the op that would bring this about.
The holder of `wmu` keeps the ops it took from the queue; no other mutation can
come between, so an op it writes is still the one queued.
-/

namespace Cornus.Hub

open Prod List

open Lib AList Option

/-- The provider id of a connection without a colon. -/
def Names (owner : Identity) (connID pid name : String) : Prop :=
  ':' ∉ connID.toList ∧ pid = owner.providerID connID name

theorem Names.unique (first : Names owner connID pid name)
    (second : Names owner other pid service) : connID = other ∧ name = service := by
  have same := first.2.symm.trans second.2
  have chars := congrArg String.toList same
  simp only [Identity.providerID, String.toList_append, append_assoc,
    append_cancel_left_eq] at chars
  obtain ⟨conns, names⟩ := append_cons_inj first.1 second.1 chars
  exact ⟨String.toList_injective conns, String.toList_injective names⟩

theorem svcKey_injective (same : svcKey name = svcKey service) : name = service := by
  have chars := congrArg String.toList same
  simp only [svcKey, String.toList_append, append_cancel_left_eq] at chars
  exact String.toList_injective chars

/-- The ops the holder of `wmu` took from the queue and has not done with. -/
def Writer.tasks (writer : Writer) : List (String × PendingOp) :=
  writer.landed.toList ++ writer.waiting

/-- What a replica owns and what it still has to write agree. -/
structure Consistent (owner : Identity) (replica : Replica) : Prop where
  keyed : ∀ {connID pids pid name}, replica.owned.lookup connID = some pids →
    pids.lookup pid = some name → Names owner connID pid name
  recorded : ∀ {pid name}, Owns replica pid name →
    ∃ record, replica.records.lookup pid = some record
  named : ∀ {pid op}, replica.pending.lookup pid = some op →
    ∃ connID, Names owner connID pid op.name
  queued : ∀ {pid op}, replica.pending.lookup pid = some op →
    ∀ record, op.blob = some record ↔ Wants replica op.name pid record
  stored : ∀ {key pid record}, replica.shared.lookup (key, pid) = some record →
    ∃ connID name, Names owner connID pid name ∧ key = svcKey name
  settled : ∀ {pid}, replica.pending.lookup pid = none → ∀ name record,
    replica.shared.lookup (svcKey name, pid) = some record ↔ Wants replica name pid record
  held : ∀ {writer task}, replica.writer = some writer →
    task ∈ writer.tasks → replica.pending.lookup task.1 = some task.2
  distinct : ∀ {writer}, replica.writer = some writer → (writer.tasks.map Prod.fst).Nodup
  landed : ∀ {writer task}, replica.writer = some writer → writer.landed = some task →
    replica.shared.lookup (svcKey task.2.name, task.1) = task.2.blob

theorem lookup_writeOp_self (shared : Hashes) :
    (writeOp shared pid op).lookup (svcKey op.name, pid) = op.blob := by
  unfold writeOp
  split
  · rename_i absent
    rw [lookup_erase, absent]
  · rename_i record present
    rw [lookup_insert, present]

theorem lookup_writeOp_of_ne (ne : (key, other) ≠ (svcKey op.name, pid)) :
    (writeOp shared pid op).lookup (key, other) = shared.lookup (key, other) := by
  unfold writeOp
  split
  · exact lookup_erase_ne ne
  · exact lookup_insert_ne ne

theorem Consistent.write (consistent : Consistent owner replica)
    (there : replica.pending.lookup pid = some op) (writer : Writer)
    (held : ∀ task ∈ writer.tasks, replica.pending.lookup task.1 = some task.2)
    (distinct : (writer.tasks.map fst).Nodup)
    (landed : ∀ task, writer.landed = some task → task = (pid, op)) :
    Consistent owner { replica with
      shared := writeOp replica.shared pid op, writer := some writer } where
  __ := consistent
  stored := by
    intro key other record found
    by_cases same : (key, other) = (svcKey op.name, pid)
    · cases same
      obtain ⟨connID, names⟩ := consistent.named there
      exact ⟨connID, op.name, names, rfl⟩
    · rw [lookup_writeOp_of_ne same] at found
      exact consistent.stored found
  settled := by
    intro other free name record
    have ne : (svcKey name, other) ≠ (svcKey op.name, pid) := by
      intro same
      rw [(mk.inj same).2, there] at free
      cases free
    rw [lookup_writeOp_of_ne ne]
    exact consistent.settled free name record
  held := by
    intro holder task own mem
    cases own
    exact held task mem
  distinct := by
    intro holder own
    cases own
    exact distinct
  landed := by
    intro holder task own done
    cases own
    rw [landed task done]
    exact lookup_writeOp_self replica.shared

theorem Consistent.hold {pass} (consistent : Consistent owner replica) (writer : Writer)
    (held : ∀ task ∈ writer.tasks, replica.pending.lookup task.1 = some task.2)
    (distinct : (writer.tasks.map fst).Nodup) (landed : writer.landed = none) :
    Consistent owner { replica with pass, writer := some writer } where
  __ := consistent
  held := by
    intro holder task own mem
    cases own
    exact held task mem
  distinct := by
    intro holder own
    cases own
    exact distinct
  landed := by
    intro holder task own done
    cases own
    rw [landed] at done
    cases done

theorem clearOp_eq_erase (there : pending.lookup pid = some op) :
    clearOp pending pid op = pending.erase pid := by
  rw [clearOp, there]
  exact if_pos rfl

theorem Consistent.wants_names (consistent : Consistent owner replica)
    (wants : Wants replica name pid record) :
    ∃ connID, Names owner connID pid name := by
  obtain ⟨⟨connID, pids, conn, here⟩, _⟩ := wants
  exact ⟨connID, consistent.keyed conn here⟩

/-- The hashes have what the queued op of a provider says, once it is
written. -/
theorem Consistent.shared_iff_wants (consistent : Consistent owner replica)
    (there : replica.pending.lookup pid = some op)
    (written : replica.shared.lookup (svcKey op.name, pid) = op.blob)
    (name : String) (record : ProviderRecord) :
    replica.shared.lookup (svcKey name, pid) = some record ↔ Wants replica name pid record := by
  obtain ⟨connID, names⟩ := consistent.named there
  by_cases same : name = op.name
  · subst same
    rw [written]
    exact consistent.queued there record
  · constructor
    · intro found
      obtain ⟨other, service, elsewhere, key⟩ := consistent.stored found
      rw [svcKey_injective key] at same
      exact absurd (elsewhere.unique names).2 same
    · intro wants
      obtain ⟨other, elsewhere⟩ := consistent.wants_names wants
      exact absurd (elsewhere.unique names).2 same

theorem Consistent.clear (consistent : Consistent owner replica)
    {waiting : List (String × PendingOp)}
    (own : replica.writer = some ⟨waiting, some (pid, op)⟩) : Consistent owner { replica with
      pending := clearOp replica.pending pid op
      writer := some ⟨waiting, none⟩ } := by
  have there : replica.pending.lookup pid = some op :=
    consistent.held own (mem_append_left _ (mem_singleton_self (pid, op)))
  have written := consistent.landed own rfl
  have distinct : pid ∉ waiting.map fst ∧
      (waiting.map fst).Nodup := nodup_cons.mp (consistent.distinct own)
  have older : ∀ {other : String} {queued : PendingOp},
      (replica.pending.erase pid).lookup other = some queued →
      replica.pending.lookup other = some queued :=
    fun found => (lookup_erase_eq_some_iff.mp found).2
  rw [clearOp_eq_erase there]
  refine ⟨consistent.keyed, consistent.recorded, ?_, ?_, consistent.stored, ?_, ?_, ?_, ?_⟩
  · intro other queued found
    exact consistent.named (older found)
  · intro other queued found
    exact consistent.queued (older found)
  · intro other free name record
    by_cases same : other = pid
    · rw [same]
      exact consistent.shared_iff_wants there written name record
    · apply consistent.settled
      rwa [lookup_erase_ne same] at free
  · intro holder task held mem
    cases held
    have ne : task.1 ≠ pid := by
      intro same
      exact distinct.1 (same ▸ mem_map_of_mem mem)
    exact (lookup_erase_ne ne).trans (consistent.held own (mem_append_right _ mem))
  · intro holder held
    cases held
    exact distinct.2
  · intro holder task held done
    cases held
    cases done

/-- The providers of a connection. -/
def providersOf (replica : Replica) (connID : String) : Dict String :=
  (replica.owned.lookup connID).getD ∅

theorem lookup_providersOf : (providersOf replica connID).lookup pid = some name ↔
      ∃ pids, replica.owned.lookup connID = some pids ∧ pids.lookup pid = some name := by
  unfold providersOf
  cases replica.owned.lookup connID with
  | none => simp
  | some pids => simp

theorem owns_iff : Owns replica pid service ↔
    ∃ connID, (providersOf replica connID).lookup pid = some service := by
  constructor
  · intro owns
    obtain ⟨connID, found⟩ := owns
    exact ⟨connID, lookup_providersOf.mpr found⟩
  · intro owns
    obtain ⟨connID, found⟩ := owns
    exact ⟨connID, lookup_providersOf.mp found⟩

theorem lookup_put :
    (providersOf (put owner replica connID name record mux) other).lookup pid = some service ↔
      (other = connID ∧ pid = owner.providerID connID name ∧ service = name) ∨
      (¬(other = connID ∧ pid = owner.providerID connID name) ∧
        (providersOf replica other).lookup pid = some service) := by
  have table : (put owner replica connID name record mux).owned =
      replica.owned.insert connID ((providersOf replica connID).insert
        (owner.providerID connID name) name) := rfl
  rw [providersOf, table]
  by_cases same : other = connID
  · subst same
    rw [lookup_insert, getD_some]
    by_cases here : pid = owner.providerID other name
    · subst here
      rw [lookup_insert]
      simp [eq_comm]
    · rw [lookup_insert_ne here]
      simp [here]
  · rw [lookup_insert_ne same]
    simp [same, providersOf]

theorem records_put : (put owner replica connID name record mux).records =
    replica.records.insert (owner.providerID connID name) record := rfl

section

variable {connID : String} (consistent : Consistent owner replica) (free : ':' ∉ connID.toList)
include consistent free

theorem Consistent.owns_put :
    Owns (put owner replica connID name record mux) pid service ↔
      (pid = owner.providerID connID name ∧ service = name) ∨
      (pid ≠ owner.providerID connID name ∧ Owns replica pid service) := by
  rw [owns_iff, owns_iff]
  constructor
  · intro owns
    obtain ⟨other, found⟩ := owns
    rcases lookup_put.mp found with ⟨_, rfl, rfl⟩ | ⟨elsewhere, old⟩
    · exact .inl ⟨rfl, rfl⟩
    right
    refine ⟨?_, other, old⟩
    intro same
    obtain ⟨pids, conn, here⟩ := lookup_providersOf.mp old
    have own : Names owner connID pid name := ⟨free, same⟩
    exact elsewhere ⟨((consistent.keyed conn here).unique own).1, same⟩
  · intro owns
    rcases owns with ⟨rfl, rfl⟩ | ⟨ne, other, old⟩
    · exact ⟨connID, lookup_put.mpr (.inl ⟨rfl, rfl, rfl⟩)⟩
    · exact ⟨other, lookup_put.mpr (.inr ⟨fun same => ne same.2, old⟩)⟩

theorem Consistent.wants_put_of_ne (ne : pid ≠ owner.providerID connID name) :
    Wants (put owner replica connID name record mux) service pid other ↔
      Wants replica service pid other := by
  rw [Wants, consistent.owns_put free, records_put, lookup_insert_ne ne, Wants]
  simp [ne]

theorem Consistent.wants_put_self :
    Wants (put owner replica connID name record mux) name
        (owner.providerID connID name) other ↔ some record = some other := by
  rw [Wants, consistent.owns_put free, records_put, lookup_insert]
  simp

theorem Consistent.put : Consistent owner (put owner replica connID name record mux) := by
  have pending : (Hub.put owner replica connID name record mux).pending =
      replica.pending.insert (owner.providerID connID name)
        ⟨name, some record, replica.seq + 1⟩ := rfl
  have own : Names owner connID (owner.providerID connID name) name := ⟨free, rfl⟩
  refine ⟨?_, ?_, ?_, ?_, consistent.stored, ?_, ?_, ?_, ?_⟩
  · intro other pids pid service conn here
    have found := lookup_providersOf.mpr ⟨pids, conn, here⟩
    rcases lookup_put.mp found with ⟨rfl, rfl, rfl⟩ | ⟨_, old⟩
    · exact own
    · obtain ⟨_, conn, here⟩ := lookup_providersOf.mp old
      exact consistent.keyed conn here
  · intro pid service owns
    rw [records_put]
    rcases (consistent.owns_put free).mp owns with ⟨rfl, _⟩ | ⟨ne, old⟩
    · exact ⟨record, lookup_insert _⟩
    · rw [lookup_insert_ne ne]
      exact consistent.recorded old
  · intro pid op found
    rw [pending] at found
    rcases lookup_insert_eq_some_iff.mp found with ⟨rfl, rfl⟩ | ⟨_, found⟩
    · exact ⟨connID, own⟩
    · exact consistent.named found
  · intro pid op found other
    rw [pending] at found
    rcases lookup_insert_eq_some_iff.mp found with ⟨rfl, rfl⟩ | ⟨same, found⟩
    · exact (consistent.wants_put_self free).symm
    · rw [consistent.wants_put_of_ne free same]
      exact consistent.queued found other
  · intro pid absent service other
    rw [pending] at absent
    have ne : pid ≠ owner.providerID connID name := by
      intro same
      rw [same, lookup_insert] at absent
      cases absent
    rw [lookup_insert_ne ne] at absent
    rw [consistent.wants_put_of_ne free ne]
    exact consistent.settled absent service other
  · intro writer task held mem
    cases held
    cases mem_singleton.mp mem
    rw [pending]
    exact lookup_insert _
  · intro writer held
    cases held
    exact nodup_singleton _
  · intro writer task held done
    cases held
    cases done

end

/-- What queueing a list of withdrawals leaves. -/
structure Entered (replica : Replica) (entries : List (String × String))
    (result : Replica × List (String × PendingOp)) : Prop where
  owned : result.1.owned = replica.owned
  records : result.1.records = replica.records
  shared : result.1.shared = replica.shared
  others : ∀ {pid}, pid ∉ entries.map Prod.fst →
    result.1.pending.lookup pid = replica.pending.lookup pid
  withdrawn : ∀ {pid name}, (pid, name) ∈ entries →
    ∃ seq, result.1.pending.lookup pid = some ⟨name, none, seq⟩
  tasks : ∀ {task}, task ∈ result.2 → result.1.pending.lookup task.1 = some task.2
  pids : result.2.map Prod.fst = entries.map Prod.fst

theorem enqueueAll_spec {entries : List (String × String)} (distinct : (entries.map fst).Nodup) :
    Entered replica entries (enqueueAll replica entries) := by
  induction entries generalizing replica with
  | nil =>
    exact ⟨rfl, rfl, rfl, fun _ => rfl, nofun, nofun, rfl⟩
  | cons entry rest ih =>
    obtain ⟨pid, name⟩ := entry
    obtain ⟨fresh, distinct⟩ := nodup_cons.mp distinct
    let op : PendingOp := ⟨name, none, replica.seq + 1⟩
    let queued : Replica :=
      { replica with
        muxes := replica.muxes.erase pid, seq := replica.seq + 1,
        pending := replica.pending.insert pid op }
    have later : Entered queued rest (enqueueAll queued rest) := ih distinct
    have own : (enqueueAll queued rest).1.pending.lookup pid = some op :=
      (later.others fresh).trans (lookup_insert _)
    refine ⟨later.owned, later.records, later.shared, ?_, ?_, ?_, ?_⟩
    · intro other absent
      rw [map_cons, mem_cons, not_or] at absent
      obtain ⟨ne, elsewhere⟩ := absent
      exact (later.others elsewhere).trans (lookup_insert_ne ne)
    · intro other service mem
      rcases mem_cons.mp mem with same | among
      · cases same
        exact ⟨replica.seq + 1, own⟩
      · exact later.withdrawn among
    · intro task mem
      rcases mem_cons.mp mem with rfl | among
      · exact own
      · exact later.tasks among
    · exact congrArg (pid :: ·) later.pids

/-- The removals that a closed connection queues. -/
def withdrawals (replica : Replica) (connID : String) (order : List String) :
    List (String × String) :=
  order.filterMap fun pid =>
    ((providersOf replica connID).lookup pid).map (pid, ·)

theorem mem_withdrawals (whole : order.Perm (providersOf replica connID).keys) :
    (pid, name) ∈ withdrawals replica connID order ↔
      (providersOf replica connID).lookup pid = some name := by
  rw [withdrawals, mem_filterMap]
  constructor
  · intro mem
    obtain ⟨other, _, found⟩ := mem
    obtain ⟨service, here, same⟩ := map_eq_some_iff.mp found
    cases same
    exact here
  · intro found
    refine ⟨pid, whole.mem_iff.mpr ?_, by rw [found]; rfl⟩
    exact lookup_isSome.mp (isSome_of_eq_some found)

theorem pids_withdrawals (whole : order.Perm (providersOf replica connID).keys) :
    (withdrawals replica connID order).map fst = order := by
  rw [withdrawals, map_filterMap]
  conv_rhs => rw [← filterMap_some (l := order)]
  apply filterMap_congr
  intro pid mem
  obtain ⟨name, found⟩ := isSome_iff_exists.mp (lookup_isSome.mpr (whole.mem_iff.mp mem))
  rw [found]
  rfl

theorem Consistent.owns_erase (consistent : Consistent owner replica) {after : Replica}
    (owned : after.owned = replica.owned.erase connID) :
    Owns after pid name ↔ Owns replica pid name ∧
      (providersOf replica connID).lookup pid = none := by
  constructor
  · intro owns
    obtain ⟨other, pids, conn, here⟩ := owns
    rw [owned] at conn
    have ne : other ≠ connID := by
      intro same
      rw [same, lookup_erase] at conn
      cases conn
    rw [lookup_erase_ne ne] at conn
    refine ⟨⟨other, pids, conn, here⟩, ?_⟩
    rw [eq_none_iff_forall_ne_some]
    intro service found
    obtain ⟨own, own_conn, own_here⟩ := lookup_providersOf.mp found
    exact ne ((consistent.keyed conn here).unique (consistent.keyed own_conn own_here)).1
  · intro owns
    obtain ⟨⟨other, pids, conn, here⟩, absent⟩ := owns
    refine ⟨other, pids, ?_, here⟩
    have ne : other ≠ connID := by
      intro same
      rw [lookup_providersOf.mpr ⟨pids, same ▸ conn, here⟩] at absent
      cases absent
    rw [owned, lookup_erase_ne ne]
    exact conn

/-- What `removeConn` leaves. -/
structure Removal (replica : Replica) (connID : String) (order : List String)
    (after : Replica) : Prop where
  owned : after.owned = replica.owned.erase connID
  records : after.records = replica.records
  shared : after.shared = replica.shared
  others : ∀ {pid}, pid ∉ order → after.pending.lookup pid = replica.pending.lookup pid
  withdrawn : ∀ {pid}, pid ∈ order → ∃ name seq,
    (providersOf replica connID).lookup pid = some name ∧
      after.pending.lookup pid = some ⟨name, none, seq⟩
  writer : ∃ tasks, after.writer = some { waiting := tasks } ∧ tasks.map Prod.fst = order ∧
    ∀ task ∈ tasks, after.pending.lookup task.1 = some task.2

theorem removeConn_spec (whole : order.Perm (providersOf replica connID).keys) :
    Removal replica connID order (removeConn replica connID order) := by
  have distinct : ((withdrawals replica connID order).map fst).Nodup := by
    rw [pids_withdrawals whole]
    exact whole.nodup_iff.mpr (keys_nodup _)
  let rest : Replica := { replica with owned := replica.owned.erase connID }
  have entered : Entered rest (withdrawals replica connID order)
      (enqueueAll rest (withdrawals replica connID order)) :=
    enqueueAll_spec distinct
  refine ⟨entered.owned, entered.records, entered.shared, ?_, ?_, ?_⟩
  · intro pid absent
    apply entered.others
    rw [pids_withdrawals whole]
    exact absent
  · intro pid mem
    obtain ⟨name, found⟩ := isSome_iff_exists.mp (lookup_isSome.mpr (whole.mem_iff.mp mem))
    obtain ⟨seq, queued⟩ := entered.withdrawn ((mem_withdrawals whole).mpr found)
    exact ⟨name, seq, found, queued⟩
  · refine ⟨_, rfl, ?_, fun task mem => entered.tasks mem⟩
    exact entered.pids.trans (pids_withdrawals whole)

theorem Consistent.removeConn (consistent : Consistent owner replica)
    (whole : order.Perm (providersOf replica connID).keys) :
    Consistent owner (removeConn replica connID order) := by
  have removal := removeConn_spec whole
  revert removal
  generalize Hub.removeConn replica connID order = after
  intro removal
  have owns : ∀ {pid name : String}, Owns after pid name ↔ Owns replica pid name ∧ pid ∉ order := by
    intro pid name
    rw [consistent.owns_erase removal.owned, whole.mem_iff]
    exact and_congr_right fun _ => lookup_eq_none
  have wants : ∀ {name pid : String} {record : ProviderRecord}, Wants after name pid record ↔
        Wants replica name pid record ∧ pid ∉ order := by
    intro name pid record
    rw [Wants, owns, removal.records, Wants, and_right_comm]
  have names : ∀ {pid name : String}, (providersOf replica connID).lookup pid = some name →
      Names owner connID pid name := by
    intro pid name found
    obtain ⟨pids, conn, here⟩ := lookup_providersOf.mp found
    exact consistent.keyed conn here
  obtain ⟨tasks, writer, pids, queued⟩ := removal.writer
  refine ⟨?_, ?_, ?_, ?_, ?_, ?_, ?_, ?_, ?_⟩
  · intro other pids pid name conn here
    rw [removal.owned] at conn
    have ne : other ≠ connID := by
      intro same
      rw [same, lookup_erase] at conn
      cases conn
    rw [lookup_erase_ne ne] at conn
    exact consistent.keyed conn here
  · intro pid name own
    rw [removal.records]
    exact consistent.recorded (owns.mp own).1
  · intro pid op found
    by_cases mem : pid ∈ order
    · obtain ⟨name, seq, here, op_eq⟩ := removal.withdrawn mem
      cases found.symm.trans op_eq
      exact ⟨connID, names here⟩
    · exact consistent.named ((removal.others mem).symm.trans found)
  · intro pid op found record
    rw [wants]
    by_cases mem : pid ∈ order
    · obtain ⟨name, seq, here, op_eq⟩ := removal.withdrawn mem
      cases found.symm.trans op_eq
      simp [mem]
    · rw [consistent.queued ((removal.others mem).symm.trans found) record]
      simp [mem]
  · intro key pid record found
    exact consistent.stored (removal.shared ▸ found)
  · intro pid absent name record
    have outside : pid ∉ order := by
      intro mem
      obtain ⟨name, seq, _, op_eq⟩ := removal.withdrawn mem
      cases absent.symm.trans op_eq
    rw [removal.others outside] at absent
    rw [removal.shared, wants, consistent.settled absent]
    simp [outside]
  · intro holder task held mem
    cases writer.symm.trans held
    exact queued task mem
  · intro holder held
    cases writer.symm.trans held
    rw [show ({ waiting := tasks } : Writer).tasks = tasks from rfl, pids]
    exact whole.nodup_iff.mpr (keys_nodup _)
  · intro holder task held done
    cases writer.symm.trans held
    cases done

variable {next : Replica}

theorem Consistent.step_write (consistent : Consistent owner replica)
    (taken : replica.step owner (.write index fate) = some next) : Consistent owner next := by
  simp only [Replica.step] at taken
  split at taken
  · rename_i waiting own
    split at taken
    · cases taken
    rename_i pid op here
    have inside := (List.getElem?_eq_some_iff.mp here).1
    have split : ((pid, op) :: waiting.eraseIdx index).Perm waiting := by
      rw [← (List.getElem?_eq_some_iff.mp here).2]
      exact getElem_cons_eraseIdx_perm inside
    have held : ∀ task ∈ (pid, op) :: waiting.eraseIdx index,
        replica.pending.lookup task.1 = some task.2 :=
      fun task mem => consistent.held own (split.mem_iff.mp mem)
    have distinct : (((pid, op) :: waiting.eraseIdx index).map fst).Nodup :=
      (split.map fst).nodup_iff.mpr (consistent.distinct own)
    have there := held (pid, op) mem_cons_self
    have others : ∀ task ∈ waiting.eraseIdx index, replica.pending.lookup task.1 = some task.2 :=
      fun task mem => held task (mem_cons_of_mem _ mem)
    have fewer := (nodup_cons.mp distinct).2
    cases fate with
    | done =>
      cases taken
      apply consistent.write there ⟨_, some (pid, op)⟩ held distinct
      intro task done
      exact (Option.some.inj done).symm
    | lost =>
      cases taken
      exact consistent.hold ⟨_, none⟩ others fewer rfl
    | unacknowledged =>
      cases taken
      exact consistent.write there ⟨_, none⟩ others fewer nofun
  · cases taken

/-- Each action of ids without a colon keeps the replica consistent. -/
theorem consistent_step (consistent : Consistent owner replica)
    (free : action.colonFree = true) (taken : replica.step owner action = some next) :
    Consistent owner next := by
  cases action with
  | register connID name addr protocol | registerDeliver connID name mux =>
    simp only [Replica.step] at taken
    split at taken <;> cases taken
    exact consistent.put (by simpa [Action.colonFree] using free)
  | removeConn connID order =>
    simp only [Replica.step] at taken
    split at taken
    · cases taken
    split at taken <;> cases taken
    rename_i whole
    exact consistent.removeConn (isPerm_iff.mp whole)
  | write index fate => exact consistent.step_write taken
  | clear =>
    simp only [Replica.step] at taken
    split at taken <;> cases taken
    rename_i own
    exact consistent.clear own
  | unlock =>
    simp only [Replica.step] at taken
    split at taken <;> cases taken
    exact { consistent with held := nofun, distinct := nofun, landed := nofun }
  | reconcile =>
    simp only [Replica.step] at taken
    split at taken <;> cases taken
    exact { consistent with }
  | reconcileOne =>
    simp only [Replica.step] at taken
    split at taken
    · rename_i free pass
      split at taken <;> cases taken
      · exact { consistent with }
      · rename_i op there
        apply consistent.hold ⟨[(_, op)], none⟩ _ (nodup_singleton _) rfl
        intro task mem
        rw [mem_singleton.mp mem]
        exact there
    · cases taken
  | expire =>
    cases taken
    exact { consistent with }

theorem consistent_start (owner : Identity) : Consistent owner {} where
  keyed := by
    intro connID pids pid name conn
    cases conn
  recorded := by
    intro pid name owns
    obtain ⟨connID, pids, conn, _⟩ := owns
    cases conn
  named := nofun
  queued := nofun
  stored := by
    intro key pid record found
    cases found
  settled := by
    intro pid _ name record
    constructor
    · intro found
      cases found
    · intro wants
      obtain ⟨⟨connID, pids, conn, _⟩, _⟩ := wants
      cases conn
  held := nofun
  distinct := nofun
  landed := nofun

/-- In every run whose connection names have no colon, a provider outside the
queue has in the shared hashes what the owned table wants, the last registered
record or nothing.  When the queue is empty the hashes hold the owned table and
nothing else. -/
theorem replica_converges (owner : Identity) {actions : List Action} {replica : Replica}
    (colonFree : ∀ action ∈ actions, action.colonFree = true)
    (reached : run (Replica.step owner) {} actions = some replica) :
    (∀ pid, pid ∉ replica.pending → ∀ name record,
      replica.shared.lookup (svcKey name, pid) = some record ↔ Wants replica name pid record) ∧
    (∀ pid name, Owns replica pid name → ∃ record, Wants replica name pid record) ∧
    (replica.pending = ∅ → ∀ key pid record, replica.shared.lookup (key, pid) = some record ↔
        ∃ name, key = svcKey name ∧ Wants replica name pid record) := by
  have consistent : Consistent owner replica := by
    have along : Along (Replica.step owner) (fun _ action => action.colonFree = true) {} actions :=
      Along.of_events colonFree
    apply run_invariant _ (consistent_start owner) along reached
    intro state action next consistent free taken
    exact consistent_step consistent free taken
  refine ⟨?_, ?_, ?_⟩
  · intro pid absent
    exact consistent.settled (lookup_eq_none.mpr absent)
  · intro pid name owns
    obtain ⟨record, recorded⟩ := consistent.recorded owns
    exact ⟨record, owns, recorded⟩
  · intro empty key pid record
    have absent : replica.pending.lookup pid = none := by
      rw [empty]
      rfl
    constructor
    · intro found
      obtain ⟨connID, name, _, rfl⟩ := consistent.stored found
      exact ⟨name, rfl, (consistent.settled absent name record).mp found⟩
    · intro wanted
      obtain ⟨name, rfl, wants⟩ := wanted
      exact (consistent.settled absent name record).mpr wants

/-- A registration whose write is lost is queued again as a withdrawal before
the heartbeat comes to it, and the withdrawal takes effect unnoticed. -/
def outageRun : List Action :=
  [.register "c1" "web" "10.0.0.1:80" "", .write 0 .lost, .unlock,
    .reconcile, .removeConn "c1" ["r1:c1:web"], .write 0 .unacknowledged,
    .unlock, .register "c2" "web" "10.0.0.2:80" "", .write 0 .done, .clear,
    .unlock, .reconcileOne, .write 0 .done, .clear, .unlock]

theorem outageRun_converges :
    ∃ replica, run (Replica.step ⟨"r1", ""⟩) {} outageRun = some replica ∧ replica.pending = ∅ ∧
      Owns replica "r1:c2:web" "web" ∧
      ∀ key pid record, replica.shared.lookup (key, pid) = some record ↔
        ∃ name, key = svcKey name ∧ Wants replica name pid record := by
  have runs : (run (Replica.step ⟨"r1", ""⟩) {} outageRun).map (fun replica =>
      (replica.pending.entries, (providersOf replica "c2").lookup "r1:c2:web")) =
        some ([], some "web") := by decide +kernel
  obtain ⟨replica, reached, same⟩ := map_eq_some_iff.mp runs
  obtain ⟨empty, found⟩ := mk.inj same
  have queue : replica.pending = ∅ := AList.ext empty
  refine ⟨replica, reached, queue, owns_iff.mpr ⟨"c2", found⟩, ?_⟩
  exact (replica_converges ⟨"r1", ""⟩ (by decide +kernel) reached).2.2 queue

end Cornus.Hub
