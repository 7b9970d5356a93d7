import Mathlib.Data.List.Induction
import Opolys.Library.FiniteMap
import Opolys.Library.MachineInt
import Opolys.Library.Transition

/-!
# The ban list

A peer that offends is banned, longer each time, and for ever at the fourth time or when the
offence is severe. The list has one record for a peer, which the next ban overwrites.

* `bansHold_iff` : no ban is lifted early unless a temporary one overwrites a permanent one.
-/

namespace Opolys

open Std (ExtTreeMap)
open MachineInt (saturatingAdd)

/-- A peer, by the text of its identity. -/
abbrev PeerId := String

/-- A record of a banned peer. -/
structure BanRecord where
  reason : String
  /-- Unix seconds. -/
  bannedAt : UInt64
  /-- How often the peer has been banned. -/
  banCount : UInt32
  /-- A ban that never expires. -/
  permanent : Bool
deriving DecidableEq

abbrev BanList := ExtTreeMap PeerId BanRecord

/-- How long a ban lasts, by how many there have been. -/
def banDurationSecs (banCount : UInt32) : UInt64 :=
  if banCount = 1 then 3600
  else if banCount = 2 then 86400
  else if banCount = 3 then 604800
  else UInt64.ofNat (2 ^ 64 - 1)

namespace BanList

/-- Whether a peer is banned, for ever or still. -/
def isPeerBanned (bannedPeers : BanList) (peer : PeerId) (now : UInt64) : Bool :=
  match bannedPeers[peer]? with
  | none => false
  | some record =>
    if record.permanent then true
    else now < saturatingAdd record.bannedAt (banDurationSecs record.banCount)

/-- How many bans a peer will have had after another. The sum of two words wraps around. -/
def nextBanCount (bannedPeers : BanList) (peer : PeerId) : UInt32 :=
  (match bannedPeers[peer]? with
    | none => 0
    | some record => record.banCount) + 1

/-- Ban a peer. -/
def banPeer (bannedPeers : BanList) (peer : PeerId) (reason : String) (permanent : Bool)
    (now : UInt64) : BanList :=
  let banCount := bannedPeers.nextBanCount peer
  bannedPeers.insert peer
    { reason, bannedAt := now, banCount, permanent := permanent || 4 ≤ banCount }

end BanList

/-- A call of `banPeer`, with the clock it reads. -/
structure BanCall where
  peer : PeerId
  reason : String
  permanent : Bool
  now : UInt64

namespace BanCall

def run (call : BanCall) (bannedPeers : BanList) : BanList :=
  bannedPeers.banPeer call.peer call.reason call.permanent call.now

end BanCall

/-- The ban list after a sequence of calls. -/
def banned (calls : List BanCall) : BanList :=
  Transition.run (fun bannedPeers call => call.run bannedPeers) ∅ calls

@[simp] theorem banned_append_singleton (calls : List BanCall) (call : BanCall) :
    banned (calls ++ [call]) = call.run (banned calls) := Transition.run_append _ _ _ _

theorem getElem?_run (call : BanCall) (bannedPeers : BanList) (peer : PeerId) :
    (call.run bannedPeers)[peer]? =
      if call.peer = peer then some ⟨call.reason, call.now, bannedPeers.nextBanCount call.peer,
        call.permanent || 4 ≤ bannedPeers.nextBanCount call.peer⟩
      else bannedPeers[peer]? :=
  FiniteMap.getElem?_insert' _ _ _ _

/-! ## What should hold -/

/-- The number of bans of a peer. -/
def offences (calls : List BanCall) (peer : PeerId) : ℕ :=
  calls.countP fun call => call.peer = peer

/-- A peer that has been banned for ever, or for the fourth time. -/
def Outlawed (calls : List BanCall) (peer : PeerId) : Prop :=
  (∃ call ∈ calls, call.peer = peer ∧ call.permanent = true) ∨ 4 ≤ offences calls peer

/-- No ban is lifted early. -/
structure BansHold (calls : List BanCall) : Prop where
  /-- A permanent ban is in force at every later time. -/
  lasting : ∀ before after, calls = before ++ after → ∀ peer, Outlawed before peer →
    ∀ now, (∀ call ∈ before, call.now ≤ now) → (banned before).isPeerBanned peer now = true
  /-- A temporary ban does not end another. -/
  extending : ∀ before call after, calls = before ++ call :: after → call.permanent = false →
    ∀ peer now, call.now ≤ now → (banned before).isPeerBanned peer now = true →
      (banned (before ++ [call])).isPeerBanned peer now = true

/-- The next ban does not overwrite a permanent record by a temporary one. -/
def KeepsPermanent (bannedPeers : BanList) (call : BanCall) : Prop :=
  ∀ record : BanRecord, bannedPeers[call.peer]? = some record → record.permanent = true →
    call.permanent = true ∨ 4 ≤ record.banCount + 1

/-! ## Records -/

section Records

variable {calls : List BanCall} {peer : PeerId} {record : BanRecord}

theorem offences_append (calls : List BanCall) (call : BanCall) (peer : PeerId) :
    offences (calls ++ [call]) peer = offences calls peer + if call.peer = peer then 1 else 0 := by
  unfold offences
  rw [List.countP_append, List.countP_singleton]
  simp

theorem Outlawed.append (h : Outlawed calls peer) (call : BanCall) :
    Outlawed (calls ++ [call]) peer := by
  rcases h with ⟨earlier, hmem, hearlier⟩ | hfour
  · exact Or.inl ⟨earlier, List.mem_append_left _ hmem, hearlier⟩
  · right
    rw [offences_append]
    omega

theorem Outlawed.offences_pos (h : Outlawed calls peer) : 0 < offences calls peer := by
  rcases h with ⟨call, hmem, hpeer, -⟩ | hfour
  · exact List.countP_pos_iff.mpr ⟨call, hmem, decide_eq_true hpeer⟩
  · omega

/-- What a record says about the calls that have made it. -/
structure Recorded (calls : List BanCall) (peer : PeerId) (record : BanRecord) : Prop where
  banCount : record.banCount = UInt32.ofNat (offences calls peer)
  bannedAt : ∃ call ∈ calls, call.peer = peer ∧ call.now = record.bannedAt
  permanent : record.permanent = true → Outlawed calls peer

theorem nextBanCount_banned (h : ∀ record, (banned calls)[peer]? = some record →
      Recorded calls peer record) (hnone : (banned calls)[peer]? = none → offences calls peer = 0) :
    (banned calls).nextBanCount peer = UInt32.ofNat (offences calls peer + 1) := by
  unfold BanList.nextBanCount
  cases hget : (banned calls)[peer]? with
  | none =>
    rw [hnone hget]
    rfl
  | some record =>
    dsimp only
    rw [(h record hget).banCount, UInt32.ofNat_add]
    rfl

/-- The records are those of the calls, and there is one for every peer that was banned. -/
theorem recorded (calls : List BanCall) (peer : PeerId) :
    (∀ record, (banned calls)[peer]? = some record → Recorded calls peer record) ∧
      ((banned calls)[peer]? = none → offences calls peer = 0) := by
  induction calls using List.reverseRecOn with
  | nil => exact ⟨fun record h => by simp [banned] at h, fun _ => rfl⟩
  | append_singleton calls call ih =>
    rw [banned_append_singleton, getElem?_run, offences_append]
    by_cases hpeer : call.peer = peer
    · subst hpeer
      have hnext := nextBanCount_banned ih.1 ih.2
      rw [if_pos rfl, if_pos rfl]
      refine ⟨?_, nofun⟩
      rintro _ ⟨⟩
      refine ⟨?_, ⟨call, by simp, rfl, rfl⟩, fun hperm => ?_⟩
      · rw [offences_append, if_pos rfl]
        exact hnext
      · rcases Bool.or_eq_true_iff.mp hperm with hcall | hfour
        · exact Or.inl ⟨call, by simp, rfl, hcall⟩
        · right
          have hle := UInt32.le_iff_toNat_le.mp (of_decide_eq_true hfour)
          rw [hnext, UInt32.toNat_ofNat'] at hle
          have hmod := Nat.mod_le (offences calls call.peer + 1) (2 ^ 32)
          rw [offences_append, if_pos rfl]
          exact hle.trans hmod
    · rw [if_neg hpeer, if_neg hpeer, Nat.add_zero]
      refine ⟨fun record h => ?_, ih.2⟩
      obtain ⟨hcount, ⟨earlier, hmem, hearlier⟩, hperm⟩ := ih.1 record h
      refine ⟨?_, ⟨earlier, List.mem_append_left _ hmem, hearlier⟩, fun h => (hperm h).append call⟩
      rw [offences_append, if_neg hpeer]
      exact hcount

/-- Where no permanent record has been overwritten, an outlawed peer has one. -/
theorem Outlawed.exists_permanent (h : Outlawed calls peer)
    (hkeeps : Transition.EveryStep (fun bannedPeers call => BanCall.run call bannedPeers)
      KeepsPermanent ∅ calls) :
    ∃ record : BanRecord, (banned calls)[peer]? = some record ∧ record.permanent = true := by
  induction calls using List.reverseRecOn with
  | nil =>
    have hpos := h.offences_pos
    cases hpos
  | append_singleton calls call ih =>
    obtain ⟨hbefore, hlast, -⟩ := Transition.everyStep_append.mp hkeeps
    obtain ⟨hsome, hnone⟩ := recorded calls peer
    rw [banned_append_singleton, getElem?_run]
    by_cases hpeer : call.peer = peer
    · subst hpeer
      rw [if_pos rfl]
      refine ⟨_, rfl, ?_⟩
      dsimp only
      rw [Bool.or_eq_true_iff, decide_eq_true_iff]
      by_cases hout : Outlawed calls call.peer
      · obtain ⟨record, hget, hperm⟩ := ih hout hbefore
        unfold BanList.nextBanCount
        rw [hget]
        exact hlast record hget hperm
      · -- the call itself is permanent, or the fourth
        rcases h with ⟨other, hmem, hother, hperm⟩ | hfour
        · rcases List.mem_append.mp hmem with hearlier | hself
          · exact absurd (Or.inl ⟨other, hearlier, hother, hperm⟩) hout
          · rw [List.mem_singleton.mp hself] at hperm
            exact Or.inl hperm
        · right
          rw [offences_append, if_pos rfl] at hfour
          have hthree : offences calls call.peer = 3 := by
            have hlt : ¬4 ≤ offences calls call.peer := fun hle => hout (Or.inr hle)
            omega
          rw [nextBanCount_banned hsome hnone, hthree]
          decide
    · rw [if_neg hpeer]
      refine ih ?_ hbefore
      rcases h with ⟨other, hmem, hother, hperm⟩ | hfour
      · rcases List.mem_append.mp hmem with hearlier | hself
        · exact Or.inl ⟨other, hearlier, hother, hperm⟩
        · rw [List.mem_singleton.mp hself] at hother
          exact absurd hother hpeer
      · right
        rwa [offences_append, if_neg hpeer, Nat.add_zero] at hfour

theorem isPeerBanned_of_permanent {bannedPeers : BanList}
    (hget : bannedPeers[peer]? = some record) (hperm : record.permanent = true) (now : UInt64) :
    bannedPeers.isPeerBanned peer now = true := by
  unfold BanList.isPeerBanned
  rw [hget]
  dsimp only
  rw [if_pos hperm]

theorem isPeerBanned_iff {bannedPeers : BanList}
    (hget : bannedPeers[peer]? = some record) (hperm : record.permanent = false) (now : UInt64) :
    bannedPeers.isPeerBanned peer now = true ↔
      now.toNat < min (record.bannedAt.toNat + (banDurationSecs record.banCount).toNat)
        (2 ^ 64 - 1) := by
  unfold BanList.isPeerBanned
  rw [hget]
  dsimp only
  rw [hperm, if_neg Bool.false_ne_true, decide_eq_true_iff, UInt64.lt_iff_toNat_lt,
    MachineInt.toNat_saturatingAdd]

/-- Each of the first three bans lasts longer than the one before it. -/
theorem banDurationSecs_succ_le {n : ℕ} (hpos : 0 < n) (h : n < 3) :
    (banDurationSecs (UInt32.ofNat n)).toNat ≤ (banDurationSecs (UInt32.ofNat (n + 1))).toNat := by
  have hn : n = 1 ∨ n = 2 := by omega
  rcases hn with rfl | rfl <;> decide

end Records

/-! ## When it holds -/

section Holds

variable {calls : List BanCall}

/-- The next temporary ban ends no earlier than the one it overwrites. -/
theorem extends_of_keeps {before : List BanCall} {call : BanCall}
    (hclock : ∀ earlier ∈ before, earlier.now ≤ call.now)
    (hbefore : Transition.EveryStep (fun bannedPeers call => BanCall.run call bannedPeers)
      KeepsPermanent ∅ before) (hkeeps : KeepsPermanent (banned before) call) {peer : PeerId}
    {now : UInt64} (h : (banned before).isPeerBanned peer now = true) :
    (banned (before ++ [call])).isPeerBanned peer now = true := by
  obtain ⟨hsome, hnone⟩ := recorded before peer
  rw [banned_append_singleton]
  have hget' := getElem?_run call (banned before) peer
  by_cases hpeer : call.peer = peer
  · rw [if_pos hpeer] at hget'
    cases hget : (banned before)[peer]? with
    | none =>
      unfold BanList.isPeerBanned at h
      rw [hget] at h
      cases h
    | some record =>
      obtain ⟨hcount, ⟨earlier, hmem, hearlier, hnow⟩, -⟩ := hsome record hget
      have hnext := nextBanCount_banned hsome hnone
      rw [hpeer] at hget'
      cases hperm' : (call.permanent || 4 ≤ (banned before).nextBanCount peer : Bool) with
      | true => exact isPeerBanned_of_permanent hget' hperm' now
      | false =>
        obtain ⟨hcall, hfour⟩ := Bool.or_eq_false_iff.mp hperm'
        have hsame : (banned before).nextBanCount peer = record.banCount + 1 := by
          unfold BanList.nextBanCount
          rw [hget]
        have hperm : record.permanent = false := by
          refine Bool.eq_false_iff.mpr fun hperm => ?_
          rcases hkeeps record (hpeer ▸ hget) hperm with hcall' | hfour'
          · rw [hcall] at hcall'
            cases hcall'
          · exact of_decide_eq_false hfour (hsame ▸ hfour')
        -- so this is the second ban or the third
        have hlt : offences before peer < 3 := by
          by_contra hge
          by_cases hthree : offences before peer = 3
          · rw [hnext, hthree] at hfour
            cases hfour
          · have hout : Outlawed before peer := Or.inr (by omega)
            obtain ⟨record', hget'', hperm''⟩ := hout.exists_permanent hbefore
            rw [hget] at hget''
            cases hget''
            rw [hperm] at hperm''
            cases hperm''
        have hpos : 0 < offences before peer :=
          List.countP_pos_iff.mpr ⟨earlier, hmem, decide_eq_true hearlier⟩
        rw [isPeerBanned_iff hget hperm, hcount] at h
        rw [isPeerBanned_iff hget' hperm']
        dsimp only
        have hlonger := banDurationSecs_succ_le hpos hlt
        have hle := UInt64.le_iff_toNat_le.mp (hclock earlier hmem)
        rw [hnext]
        rw [hnow] at hle
        omega
  · rw [if_neg hpeer] at hget'
    unfold BanList.isPeerBanned at h ⊢
    rw [hget']
    exact h

theorem le_endOfTime (now : UInt64) : now ≤ UInt64.ofNat (2 ^ 64 - 1) := by
  have hlt := now.toNat_lt
  have hmax : (UInt64.ofNat (2 ^ 64 - 1)).toNat = 2 ^ 64 - 1 := rfl
  rw [UInt64.le_iff_toNat_le]
  omega

/-- A temporary record is over at the end of time. -/
theorem isPeerBanned_max {bannedPeers : BanList} {peer : PeerId} {record : BanRecord}
    (hget : bannedPeers[peer]? = some record) (hperm : record.permanent = false) :
    bannedPeers.isPeerBanned peer (UInt64.ofNat (2 ^ 64 - 1)) = false := by
  refine Bool.eq_false_iff.mpr fun h => ?_
  have hlt := (isPeerBanned_iff hget hperm _).mp h
  have hmax : (UInt64.ofNat (2 ^ 64 - 1)).toNat = 2 ^ 64 - 1 := rfl
  omega

/-- Bans hold, at every point of a sequence of calls and at every later time, if and only if no
temporary ban overwrites a permanent record. -/
theorem bansHold_iff (hclock : calls.Pairwise fun earlier later => earlier.now ≤ later.now) :
    BansHold calls ↔
      Transition.EveryStep (fun bannedPeers call => BanCall.run call bannedPeers) KeepsPermanent
        ∅ calls := by
  constructor
  · intro hholds
    rw [Transition.everyStep_iff]
    rintro before call after rfl
    change KeepsPermanent (banned before) call
    intro record hget hperm
    by_contra hnot
    obtain ⟨hcall, hfour⟩ := not_or.mp hnot
    have hout := (((recorded before call.peer).1 record hget).permanent hperm).append call
    have hlasting := hholds.lasting (before ++ [call]) after (by simp) call.peer hout
      (UInt64.ofNat (2 ^ 64 - 1)) fun earlier _ => le_endOfTime earlier.now
    have hget' := getElem?_run call (banned before) call.peer
    have hnext : (banned before).nextBanCount call.peer = record.banCount + 1 := by
      unfold BanList.nextBanCount
      rw [hget]
    rw [if_pos rfl, hnext] at hget'
    rw [banned_append_singleton, isPeerBanned_max hget'] at hlasting
    · cases hlasting
    · exact Bool.or_eq_false_iff.mpr ⟨Bool.eq_false_iff.mpr hcall, decide_eq_false hfour⟩
  · intro hkeeps
    refine ⟨?_, ?_⟩
    · rintro before after rfl peer hout now -
      obtain ⟨record, hget, hperm⟩ :=
        hout.exists_permanent (Transition.everyStep_append.mp hkeeps).1
      exact isPeerBanned_of_permanent hget hperm now
    · rintro before call after rfl - peer now - h
      obtain ⟨hbefore, hcall, -⟩ := Transition.everyStep_append.mp hkeeps
      obtain ⟨-, -, hearlier⟩ := List.pairwise_append.mp hclock
      exact extends_of_keeps (fun earlier hmem => hearlier earlier hmem call List.mem_cons_self)
        hbefore hcall h

/-- The bans of a peer that sends two bad blocks. -/
theorem bansHold_of_two :
    BansHold [⟨"peer", "invalid_block", false, 1000⟩, ⟨"peer", "invalid_block", false, 9000⟩] := by
  refine (bansHold_iff (by decide)).mpr
    ⟨fun record hget => ?_, fun record hget hperm => ?_, trivial⟩
  · simp at hget
  · rw [getElem?_run, if_pos rfl] at hget
    cases hget
    cases hperm

/-- A peer that is banned for ever for a block without work, and then for a day for a transaction
of another network, is not banned any more after that day. -/
theorem ban_lifted :
    ¬∀ calls : List BanCall, (calls.Pairwise fun earlier later => earlier.now ≤ later.now) →
      BansHold calls := by
  intro h
  have hholds := h [⟨"peer", "fake_pow", true, 1000⟩, ⟨"peer", "wrong_chain_id", false, 2000⟩]
    (by decide)
  have hlasting := hholds.lasting _ [] (List.append_nil _).symm "peer"
    (Or.inl ⟨_, List.mem_cons_self, rfl, rfl⟩) 88400 (by decide)
  revert hlasting
  decide +kernel

end Holds

end Opolys
