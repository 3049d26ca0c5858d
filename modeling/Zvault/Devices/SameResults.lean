import Mathlib.Data.List.Induction
import Zvault.Bytes.Radix
import Zvault.Devices.SessionRuns

/-!
# Results of the session stores

What a call returns from the two stores, and what is known of a session that a token
authenticates.
-/

namespace Zvault.Devices

open Relational Past

variable {Hash : Type} [DecidableEq Hash] {T : UuidText} {hashToken : String → Hash}

section Results

variable {events : List Event} {s : Stores Hash} {now : ℤ} {accountId : Uuid}

theorem InMemorySessionStore.revoke_result (memory : InMemorySessionStore Hash)
    (userId sessionId : String) : (memory.revoke userId sessionId).1 = .revoked
      (memory.byId.rows.any fun m => m.id = sessionId ∧ m.userId = userId) := by
  rw [InMemorySessionStore.revoke]
  cases hfind : memory.byId.find sessionId with
  | none =>
    have hnone : (memory.byId.rows.any fun m => m.id = sessionId ∧ m.userId = userId) = false := by
      rw [List.any_eq_false]
      intro m hm hmine
      exact Table.find_eq_none.mp hfind m hm (of_decide_eq_true hmine).1
    dsimp only
    rw [hnone]
  | some m =>
    obtain ⟨hm, hid⟩ := Table.find_eq_some.mp hfind
    have hany : (memory.byId.rows.any fun m => m.id = sessionId ∧ m.userId = userId) =
        decide (m.userId = userId) := by
      rw [Bool.eq_iff_iff, List.any_eq_true, decide_eq_true_iff]
      constructor
      · rintro ⟨m', hm', hmine⟩
        obtain ⟨hid', huser⟩ := of_decide_eq_true hmine
        obtain rfl := Table.eq_of_key_eq hm' hm (hid'.trans hid.symm)
        exact huser
      · rintro huser
        exact ⟨m, hm, decide_eq_true ⟨hid, huser⟩⟩
    dsimp only
    rw [hany]
    by_cases huser : m.userId = userId
    · rw [if_neg (not_not.mpr huser), decide_eq_true huser]
    · rw [if_pos huser, decide_eq_false huser]

end Results

section Authenticated

variable {e : Event} {session : Session Hash}

end Authenticated

/-- With another spelling of its id, a session is revoked in the database and not found in
memory. -/
theorem revoke_unspelled {text : String} {id : Uuid} (hread : T.parse text = some id)
    (hwritten : T.print id ≠ text) (device : DeviceInfo) (token : String) (accountId : Uuid)
    (now : ℤ) :
    let issue : Event := ⟨.issue (T.print accountId) device id token, now⟩
    let revoke : Event := ⟨.revoke (T.print accountId) text, now⟩
    memoryAnswer T hashToken [issue] revoke = .revoked false ∧
      databaseAnswer T hashToken [issue] revoke = .revoked true := by
  intro issue revoke
  constructor
  · rw [memoryAnswer, InMemorySessionStore.serve]
    dsimp only [revoke]
    rw [InMemorySessionStore.revoke_result, Returned.revoked.injEq, List.any_eq_false]
    intro m hm
    rcases Table.mem_insertNew.mp hm with hm | ⟨rfl, -⟩
    · cases hm
    · exact fun hmine => hwritten (of_decide_eq_true hmine).1
  · rw [databaseAnswer, DrizzleSessionStore.serve]
    dsimp only [revoke]
    rw [DrizzleSessionStore.revoke, T.parse_print, hread]
    dsimp only
    rw [Returned.revoked.injEq, decide_eq_true_iff, List.length_pos_iff_exists_mem]
    refine ⟨newRow id accountId device (hashToken token) now, Table.mem_select.mpr
      ⟨?_, decide_eq_true ⟨rfl, rfl, rfl⟩⟩⟩
    change _ ∈ (DrizzleSessionStore.empty.issue T hashToken (T.print accountId) device id token
      now).2.sessions
    rw [issue_database (s := ⟨.empty, .empty⟩) (fun row h => absurd h (Table.not_mem_empty row))
      fun row h => absurd h (Table.not_mem_empty row)]
    exact Table.mem_insertNew.mpr (Or.inr ⟨rfl, fun row h => absurd h (Table.not_mem_empty row)⟩)

/-- The value of a hexadecimal digit, small or capital. -/
def hexValue (c : Char) : Option ℕ := (List.range 16).find? fun n => n.digitChar = c.toLower

end Zvault.Devices
