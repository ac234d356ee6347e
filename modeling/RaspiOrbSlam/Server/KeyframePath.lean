import RaspiOrbSlam.Foundation.EventRun
import RaspiOrbSlam.Protocol.Packets
import Mathlib.Data.List.Nodup

/-!
# The path of keyframes

`networkPushThread` polls the keyframes of the map and announces those from the
place `prevKeyframeIndex` on, which it then moves to the end. The map returns
its keyframes in any order, and others may have come and gone since the last
poll. A run of polls is a list of what each of them reads.
-/

namespace RaspiOrbSlam.Server

open Foundation
open Protocol (PathPacket Vec3)

/-- What one poll reads: the distinct keyframes of `GetAllKeyFrames`, and of a
keyframe `isBad` and the camera center. -/
structure Snapshot (K : Type) where
  kfs : List (Option K)
  isBad : K → Bool
  cameraCenter : K → Vec3
  distinct : ∀ (i j : Nat) (k : K), kfs[i]? = some (some k) → kfs[j]? = some (some k) → i = j
  size_lt : kfs.length < 2 ^ 64

structure Announcement (K : Type) where
  keyframe : K
  pathPacket : PathPacket

/-- The thread between two polls, with the packets that it handed to `sendToAll`. -/
structure PushThread (K : Type) where
  prevKeyframeIndex : Nat
  sent : List (Announcement K)

variable {K : Type}

namespace Snapshot

/-- The body of the loop. -/
def announcement (snapshot : Snapshot K) (i : Nat) : Option (Announcement K) :=
  match snapshot.kfs[i]? with
  | some (some kf) =>
      if snapshot.isBad kf then none
      else some ⟨kf, ⟨snapshot.cameraCenter kf, UInt64.ofNat i⟩⟩
  | some none | none => none

/-- The loop, with the index that it leaves. -/
def announceFrom (snapshot : Snapshot K) (i : Nat) : List (Announcement K) × Nat :=
  if i < snapshot.kfs.length then
    let (sent, last) := snapshot.announceFrom (i + 1)
    ((snapshot.announcement i).toList ++ sent, last)
  else ([], i)
termination_by snapshot.kfs.length - i

/-- A keyframe, not null and not bad, at the place `i` or behind it. -/
def GoodFrom (snapshot : Snapshot K) (i : Nat) (k : K) : Prop :=
  ∃ j, i ≤ j ∧ snapshot.kfs[j]? = some (some k) ∧ snapshot.isBad k = false

def Good (snapshot : Snapshot K) (k : K) : Prop := snapshot.GoodFrom 0 k

end Snapshot

namespace PushThread

/-- The thread in front of its loop. -/
def start : PushThread K := ⟨1, []⟩

def next (thread : PushThread K) (snapshot : Snapshot K) : PushThread K :=
  let (sent, last) := snapshot.announceFrom thread.prevKeyframeIndex
  ⟨last, thread.sent ++ sent⟩

end PushThread

/-- The first place that the poll after the given ones announces: the size of the
largest of them, and at least one. -/
def cursor (earlier : List (Snapshot K)) : Nat :=
  earlier.foldl (fun i snapshot => max i snapshot.kfs.length) 1

/-- No keyframe is announced twice, each is announced by the poll in which it first
appears, unless that is the first poll, and no two have one index. -/
structure AnnouncesOnce (polls : List (Snapshot K)) : Prop where
  once : ((after PushThread.next .start polls).sent.map Announcement.keyframe).Nodup
  appears : ∀ earlier now, earlier ++ [now] <+: polls → earlier ≠ [] →
    ∀ k, now.Good k → (∀ old ∈ earlier, ¬old.Good k) →
      ∃ a ∈ (now.announceFrom (after PushThread.next .start earlier).prevKeyframeIndex).1,
        a.keyframe = k
  index : ∀ a ∈ (after PushThread.next .start polls).sent,
    ∀ b ∈ (after PushThread.next .start polls).sent,
      a.pathPacket.mIndex = b.pathPacket.mIndex → a.keyframe = b.keyframe

/-- The keyframes from the cursor on stood at no earlier poll from its cursor on, and
those in front of it have been seen. -/
structure Settled (earlier : List (Snapshot K)) (now : Snapshot K) : Prop where
  behind : ∀ k, now.GoodFrom (cursor earlier) k →
    ∀ before old, before ++ [old] <+: earlier → ¬old.GoodFrom (cursor before) k
  inFront : earlier ≠ [] → ∀ i < cursor earlier, ∀ k, now.kfs[i]? = some (some k) →
    now.isBad k = false → ∃ old ∈ earlier, old.Good k

namespace Snapshot

variable {snapshot : Snapshot K} {i : Nat}

theorem announcement_eq_some_iff {a : Announcement K} :
    snapshot.announcement i = some a ↔
      snapshot.kfs[i]? = some (some a.keyframe) ∧ snapshot.isBad a.keyframe = false ∧
        a.pathPacket = ⟨snapshot.cameraCenter a.keyframe, UInt64.ofNat i⟩ := by
  unfold announcement
  split
  next kf hkf =>
    by_cases hbad : snapshot.isBad kf = true
    · rw [if_pos hbad, hkf]
      constructor
      · exact fun h => absurd h (by simp)
      · rintro ⟨hkey, hgood, -⟩
        obtain rfl : kf = a.keyframe := by simpa using hkey
        rw [hbad] at hgood
        cases hgood
    · rw [if_neg hbad, hkf]
      constructor
      · rintro ⟨rfl⟩
        exact ⟨rfl, Bool.eq_false_iff.mpr hbad, rfl⟩
      · rintro ⟨hkey, -, hpacket⟩
        obtain rfl : kf = a.keyframe := by simpa using hkey
        rw [← hpacket]
  next h => simp [h]
  next h => simp [h]

/-- The loop goes over the places from `i` on. -/
theorem announceFrom_eq (snapshot : Snapshot K) (i : Nat) :
    snapshot.announceFrom i =
      ((List.range' i (snapshot.kfs.length - i)).filterMap snapshot.announcement,
        max i snapshot.kfs.length) := by
  rw [announceFrom]
  by_cases hi : i < snapshot.kfs.length
  · obtain ⟨n, hn⟩ : ∃ n, snapshot.kfs.length - i = n + 1 :=
      Nat.exists_eq_add_one.mpr (by omega)
    have hnext : snapshot.kfs.length - (i + 1) = n := by omega
    have hmax : max (i + 1) snapshot.kfs.length = max i snapshot.kfs.length := by omega
    rw [if_pos hi, announceFrom_eq snapshot (i + 1), hn, hnext, hmax, List.range'_succ,
      List.filterMap_cons]
    cases snapshot.announcement i <;> rfl
  · have hzero : snapshot.kfs.length - i = 0 := by omega
    rw [if_neg hi, hzero, Nat.max_eq_left (Nat.not_lt.mp hi)]
    rfl
termination_by snapshot.kfs.length - i

theorem mem_announceFrom {a : Announcement K} :
    a ∈ (snapshot.announceFrom i).1 ↔ ∃ j, i ≤ j ∧ snapshot.announcement j = some a := by
  rw [announceFrom_eq, List.mem_filterMap]
  constructor
  · rintro ⟨j, hj, ha⟩
    exact ⟨j, (List.mem_range'_1.mp hj).1, ha⟩
  · rintro ⟨j, hj, ha⟩
    have hlt := (List.getElem?_eq_some_iff.mp (announcement_eq_some_iff.mp ha).1).1
    exact ⟨j, List.mem_range'_1.mpr ⟨hj, by omega⟩, ha⟩

/-- The good keyframes from the place `i` on are announced. -/
theorem announced_iff {k : K} :
    (∃ a ∈ (snapshot.announceFrom i).1, a.keyframe = k) ↔ snapshot.GoodFrom i k := by
  simp only [mem_announceFrom, announcement_eq_some_iff]
  constructor
  · rintro ⟨a, ⟨j, hj, hkey, hgood, -⟩, rfl⟩
    exact ⟨j, hj, hkey, hgood⟩
  · rintro ⟨j, hj, hkey, hgood⟩
    exact ⟨⟨k, ⟨snapshot.cameraCenter k, UInt64.ofNat j⟩⟩, ⟨j, hj, hkey, hgood, rfl⟩, rfl⟩

/-- One poll announces no keyframe twice, and no index twice. -/
theorem nodup_announceFrom {β : Type} (f : Announcement K → β)
    (hf : ∀ j j' a a', snapshot.announcement j = some a → snapshot.announcement j' = some a' →
      f a = f a' → j = j') :
    ((snapshot.announceFrom i).1.map f).Nodup := by
  rw [announceFrom_eq, List.map_filterMap]
  refine List.Nodup.filterMap (fun j j' b hj hj' => ?_) (List.nodup_range' ..)
  obtain ⟨a, ha, rfl⟩ := Option.map_eq_some_iff.mp hj
  obtain ⟨a', ha', heq⟩ := Option.map_eq_some_iff.mp hj'
  exact hf j j' a a' ha ha' heq.symm

theorem nodup_keyframe (snapshot : Snapshot K) (i : Nat) :
    ((snapshot.announceFrom i).1.map Announcement.keyframe).Nodup := by
  apply snapshot.nodup_announceFrom _
  intro j j' a a' ha ha' heq
  have hplace := (announcement_eq_some_iff.mp ha).1
  have hplace' := (announcement_eq_some_iff.mp ha').1
  rw [← heq] at hplace'
  exact snapshot.distinct j j' a.keyframe hplace hplace'

theorem mIndex_toNat {a : Announcement K} (ha : snapshot.announcement i = some a) :
    i < snapshot.kfs.length ∧ a.pathPacket.mIndex.toNat = i := by
  obtain ⟨hplace, -, hpacket⟩ := announcement_eq_some_iff.mp ha
  have hlt := (List.getElem?_eq_some_iff.mp hplace).1
  refine ⟨hlt, ?_⟩
  rw [hpacket]
  exact UInt64.toNat_ofNat_of_lt' (hlt.trans snapshot.size_lt)

theorem nodup_mIndex (snapshot : Snapshot K) (i : Nat) :
    ((snapshot.announceFrom i).1.map fun a => a.pathPacket.mIndex).Nodup := by
  apply snapshot.nodup_announceFrom _
  intro j j' a a' ha ha' heq
  have hindex := (mIndex_toNat ha).2
  have hindex' := (mIndex_toNat ha').2
  rw [← hindex, ← hindex', heq]

end Snapshot

theorem cursor_concat (earlier : List (Snapshot K)) (now : Snapshot K) :
    cursor (earlier ++ [now]) = max (cursor earlier) now.kfs.length :=
  List.foldl_append

/-- The cursor has passed the first place and every place of an earlier poll. -/
theorem lt_cursor_iff {earlier : List (Snapshot K)} {i : Nat} :
    i < cursor earlier ↔ i = 0 ∨ ∃ old ∈ earlier, i < old.kfs.length := by
  induction earlier using List.reverseRecOn with
  | nil => simp [cursor]
  | append_singleton earlier now ih =>
      rw [cursor_concat, lt_max_iff, ih, or_assoc]
      apply or_congr_right
      simp only [List.mem_append, List.mem_singleton, or_and_right, exists_or, exists_eq_left]

namespace PushThread

theorem prevKeyframeIndex_eq (earlier : List (Snapshot K)) :
    (after next start earlier).prevKeyframeIndex = cursor earlier := by
  induction earlier using List.reverseRecOn with
  | nil => rfl
  | append_singleton earlier now ih =>
      rw [after_concat, cursor_concat, ← ih]
      exact congrArg Prod.snd (now.announceFrom_eq _)

theorem sent_concat (earlier : List (Snapshot K)) (now : Snapshot K) :
    (after next start (earlier ++ [now])).sent =
      (after next start earlier).sent ++ (now.announceFrom (cursor earlier)).1 := by
  rw [after_concat, ← prevKeyframeIndex_eq]
  rfl

/-- What is announced stood, at some poll, from the cursor on. -/
theorem sent_iff {polls : List (Snapshot K)} {k : K} :
    k ∈ (after next start polls).sent.map Announcement.keyframe ↔
      ∃ before old, before ++ [old] <+: polls ∧ old.GoodFrom (cursor before) k := by
  induction polls using List.reverseRecOn with
  | nil => simp [after, start]
  | append_singleton polls now ih =>
      rw [sent_concat, List.map_append, List.mem_append, ih, List.mem_map, Snapshot.announced_iff]
      simp only [concat_prefix_concat]
      constructor
      · rintro (⟨before, old, hold, hk⟩ | hk)
        · exact ⟨before, old, Or.inr hold, hk⟩
        · exact ⟨polls, now, Or.inl ⟨rfl, rfl⟩, hk⟩
      · rintro ⟨before, old, ⟨rfl, rfl⟩ | hold, hk⟩
        · exact Or.inr hk
        · exact Or.inl ⟨before, old, hold, hk⟩

/-- The keyframes announced up to a poll are distinct if those up to the poll before are
and none of them is announced again. -/
theorem once_concat_iff (earlier : List (Snapshot K)) (now : Snapshot K) :
    ((after next start (earlier ++ [now])).sent.map Announcement.keyframe).Nodup ↔
      ((after next start earlier).sent.map Announcement.keyframe).Nodup ∧
        ∀ k, now.GoodFrom (cursor earlier) k →
          ∀ before old, before ++ [old] <+: earlier → ¬old.GoodFrom (cursor before) k := by
  rw [sent_concat, List.map_append, List.nodup_append']
  apply and_congr_right
  intro _
  rw [and_iff_right (now.nodup_keyframe _)]
  constructor
  · intro hdisjoint k hk before old hold hkold
    exact hdisjoint (sent_iff.mpr ⟨before, old, hold, hkold⟩)
      (List.mem_map.mpr (Snapshot.announced_iff.mpr hk))
  · intro hnone k hsent hnow
    obtain ⟨before, old, hold, hkold⟩ := sent_iff.mp hsent
    exact hnone k (Snapshot.announced_iff.mp (List.mem_map.mp hnow)) before old hold hkold

/-- Every announced index is one that the cursor has passed. -/
theorem mIndex_lt_cursor {polls : List (Snapshot K)} {a : Announcement K}
    (ha : a ∈ (after next start polls).sent) : a.pathPacket.mIndex.toNat < cursor polls := by
  induction polls using List.reverseRecOn with
  | nil => cases ha
  | append_singleton polls now ih =>
      have hcursor := cursor_concat polls now
      rw [sent_concat, List.mem_append] at ha
      rcases ha with ha | ha
      · have hlt := ih ha
        omega
      · obtain ⟨j, -, hj⟩ := Snapshot.mem_announceFrom.mp ha
        have hindex := Snapshot.mIndex_toNat hj
        omega

theorem nodup_mIndex (polls : List (Snapshot K)) :
    ((after next start polls).sent.map fun a => a.pathPacket.mIndex).Nodup := by
  induction polls using List.reverseRecOn with
  | nil => exact List.nodup_nil
  | append_singleton polls now ih =>
      rw [sent_concat, List.map_append, List.nodup_append']
      refine ⟨ih, now.nodup_mIndex _, ?_⟩
      intro index hold hnew
      obtain ⟨a, ha, rfl⟩ := List.mem_map.mp hold
      obtain ⟨b, hb, heq⟩ := List.mem_map.mp hnew
      obtain ⟨j, hj, hannounced⟩ := Snapshot.mem_announceFrom.mp hb
      have hlt := mIndex_lt_cursor ha
      have hindex := (Snapshot.mIndex_toNat hannounced).2
      rw [heq] at hindex
      omega

theorem once_iff (polls : List (Snapshot K)) :
    ((after next start polls).sent.map Announcement.keyframe).Nodup ↔
      ∀ earlier now, earlier ++ [now] <+: polls → ∀ k, now.GoodFrom (cursor earlier) k →
        ∀ before old, before ++ [old] <+: earlier → ¬old.GoodFrom (cursor before) k := by
  induction polls using List.reverseRecOn with
  | nil =>
      apply iff_of_true List.nodup_nil
      intro earlier now hnow
      exact absurd (List.prefix_nil.mp hnow) (by simp)
  | append_singleton polls now ih =>
      rw [once_concat_iff, ih]
      simp only [concat_prefix_concat]
      constructor
      · rintro ⟨hpolls, hlast⟩ earlier now' (⟨rfl, rfl⟩ | hnow)
        · exact hlast
        · exact hpolls earlier now' hnow
      · intro hall
        exact ⟨fun earlier now' hnow => hall earlier now' (Or.inr hnow),
          hall polls now (Or.inl ⟨rfl, rfl⟩)⟩

/-- Over every run of polls, each keyframe is announced once, and by the poll in which
it first appears, exactly if every poll finds the map settled. -/
theorem announcesOnce_iff (polls : List (Snapshot K)) :
    AnnouncesOnce polls ↔ ∀ earlier now, earlier ++ [now] <+: polls → Settled earlier now := by
  constructor
  · intro h earlier now hnow
    refine ⟨(once_iff polls).mp h.once earlier now hnow, ?_⟩
    intro hne i hi k hkey hgood
    by_contra hnew
    obtain ⟨a, ha⟩ := h.appears earlier now hnow hne k ⟨i, Nat.zero_le i, hkey, hgood⟩
      fun old hold hk => hnew ⟨old, hold, hk⟩
    have hannounced := Snapshot.announced_iff.mp ⟨a, ha⟩
    rw [prevKeyframeIndex_eq] at hannounced
    obtain ⟨j, hj, hkey', -⟩ := hannounced
    have hplace := now.distinct i j k hkey hkey'
    omega
  · intro h
    refine ⟨(once_iff polls).mpr fun earlier now hnow => (h earlier now hnow).behind, ?_, ?_⟩
    · rintro earlier now hnow hne k ⟨i, -, hkey, hgood⟩ hnew
      rw [prevKeyframeIndex_eq, Snapshot.announced_iff]
      refine ⟨i, ?_, hkey, hgood⟩
      by_contra hlt
      obtain ⟨old, hold, hk⟩ :=
        (h earlier now hnow).inFront hne i (Nat.not_le.mp hlt) k hkey hgood
      exact hnew old hold hk
    · intro a ha b hb heq
      have hsame := List.inj_on_of_nodup_map (nodup_mIndex polls) ha hb heq
      rw [hsame]

end PushThread

/-- Keyframes are only added behind those there, and a bad one stays bad. -/
structure Appends (old now : Snapshot K) : Prop where
  isPrefix : old.kfs <+: now.kfs
  stays_bad : ∀ k, old.isBad k = true → now.isBad k = true

theorem Appends.kfs_eq {old now : Snapshot K} (h : Appends old now) {i : Nat}
    (hi : i < old.kfs.length) : now.kfs[i]? = old.kfs[i]? := by
  rw [List.prefix_iff_getElem?.mp h.isPrefix i hi, List.getElem?_eq_getElem hi]

/-- A map that only appends to what the first poll found is settled. -/
theorem Settled.of_appends {earlier : List (Snapshot K)} {now : Snapshot K}
    (happends : ∀ old ∈ earlier, Appends old now)
    (hfirst : earlier ≠ [] → ∃ old ∈ earlier, old.kfs ≠ []) : Settled earlier now where
  behind := by
    rintro k ⟨i, hi, hkey, -⟩ before old hold ⟨j, -, hkey', -⟩
    have hmem : old ∈ earlier := hold.subset (by simp)
    obtain ⟨hj, -⟩ := List.getElem?_eq_some_iff.mp hkey'
    have hthere := ((happends old hmem).kfs_eq hj).trans hkey'
    have hplace := now.distinct i j k hkey hthere
    have hlt : j < cursor earlier := lt_cursor_iff.mpr (Or.inr ⟨old, hmem, hj⟩)
    omega
  inFront := by
    intro hne i hi k hkey hgood
    obtain ⟨old, hmem, hlt⟩ : ∃ old ∈ earlier, i < old.kfs.length := by
      rcases lt_cursor_iff.mp hi with rfl | hold
      · obtain ⟨old, hmem, hkfs⟩ := hfirst hne
        exact ⟨old, hmem, List.length_pos_iff.mpr hkfs⟩
      · exact hold
    have hkey' := ((happends old hmem).kfs_eq hlt).symm.trans hkey
    refine ⟨old, hmem, i, Nat.zero_le i, hkey', ?_⟩
    by_contra hbad
    have hnow := (happends old hmem).stays_bad k (by simpa using hbad)
    rw [hgood] at hnow
    cases hnow

/-- A map of good keyframes. -/
def Snapshot.ofKeyframes (kfs : List K) (hnodup : kfs.Nodup) (hsize : kfs.length < 2 ^ 64) :
    Snapshot K where
  kfs := kfs.map some
  isBad _ := false
  cameraCenter _ := ⟨0, 0, 0⟩
  distinct i j k hi hj := by
    rw [List.getElem?_map, Option.map_eq_some_iff] at hi hj
    obtain ⟨k', hi, hk⟩ := hi
    obtain ⟨k'', hj, hk'⟩ := hj
    obtain rfl : k' = k'' := Option.some.inj (hk.trans hk'.symm)
    exact (List.getElem?_inj (List.getElem?_eq_some_iff.mp hi).1 hnodup).mp (hi.trans hj.symm)
  size_lt := by rwa [List.length_map]

/-- A keyframe is added in front of two others: the one behind it is announced again,
and the new one never. -/
theorem added_keyframe_missed :
    let polls : List (Snapshot Nat) :=
      [.ofKeyframes [10, 11] (by decide) (by decide),
        .ofKeyframes [12, 10, 11] (by decide) (by decide)]
    (after PushThread.next .start polls).sent.map Announcement.keyframe = [11, 11] ∧
      ¬AnnouncesOnce polls := by
  intro polls
  have hsent : (after PushThread.next .start polls).sent.map Announcement.keyframe = [11, 11] := by
    decide +kernel
  refine ⟨hsent, fun h => ?_⟩
  have honce := h.once
  rw [hsent] at honce
  exact absurd honce (by decide)

end RaspiOrbSlam.Server
