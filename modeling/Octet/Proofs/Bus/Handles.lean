import Mathlib.Data.List.Induction
import Mathlib.Data.List.Nodup
import Octet.Memory
import Octet.Proofs.Bus.Signals

/-! # Device numbers as handles

The number that a mount gives out names one device as long as it stays mounted, and nothing at all once it
has been unmounted, whatever is mounted and unmounted in between. For that the counter of the numbers
must not have gone round, that is, no bus may see 2³² mounts.
-/

namespace Octet

inductive BusOperation (δ : Type) where
  | mount (d : δ)
  | unmount (id : Nat)
  | signal (s : Signal)

namespace BusOperation

variable {δ : Type}

def isMount : BusOperation δ → Bool
  | .mount _ => true
  | _ => false

def signal? : BusOperation δ → Option Signal
  | .signal s => some s
  | _ => none

def mounts (ops : List (BusOperation δ)) : Nat := ops.countP isMount

def signals (ops : List (BusOperation δ)) : List Signal := ops.filterMap signal?

theorem mounts_append (ops rest : List (BusOperation δ)) :
    mounts (ops ++ rest) = mounts ops + mounts rest := List.countP_append

theorem mounts_cons_mount (d : δ) (ops : List (BusOperation δ)) :
    mounts (.mount d :: ops) = mounts ops + 1 := List.countP_cons_of_pos rfl

theorem mounts_lt_of_append {ops rest : List (BusOperation δ)} {n : Nat}
    (h : mounts (ops ++ rest) < n) : mounts ops < n := by
  rw [mounts_append] at h
  omega

theorem signals_append (ops rest : List (BusOperation δ)) :
    signals (ops ++ rest) = signals ops ++ signals rest := List.filterMap_append

end BusOperation

open BusOperation

namespace Bus

variable {δ : Type}

theorem device?_eq_none_iff {bus : Bus δ} {id : Nat} : bus.device? id = none ↔ id ∉ bus.ids := by
  simp [device?, ids]

theorem device?_eq_some_iff {bus : Bus δ} (h : bus.ids.Nodup) {id : Nat} {d : δ} :
    bus.device? id = some d ↔ ⟨id, d⟩ ∈ bus.mounted := by
  constructor
  · intro hd
    obtain ⟨m, hm, rfl⟩ := Option.map_eq_some_iff.1 hd
    obtain rfl : m.id = id := by simpa using List.find?_some hm
    exact List.mem_of_find?_eq_some hm
  · intro hd
    have hfound : (bus.mounted.find? (·.id == id)).isSome := List.find?_isSome.2 ⟨_, hd, by simp⟩
    obtain ⟨m, hm⟩ := Option.isSome_iff_exists.1 hfound
    have hid : m.id = id := by simpa using List.find?_some hm
    rw [device?, hm, List.inj_on_of_nodup_map h (List.mem_of_find?_eq_some hm) hd hid]
    rfl

theorem exists_mounted_of_device? {bus : Bus δ} {id : Nat} {d : δ} (h : bus.device? id = some d) :
    ∃ front behind, bus.mounted = front ++ ⟨id, d⟩ :: behind := by
  obtain ⟨m, hm, rfl⟩ := Option.map_eq_some_iff.1 h
  obtain rfl : m.id = id := by simpa using List.find?_some hm
  exact List.append_of_mem (List.mem_of_find?_eq_some hm)

/-- The numbers grow along the bus and have all been given out. -/
structure Ordered (bus : Bus δ) : Prop where
  increasing : bus.ids.Pairwise (· < ·)
  below : ∀ id ∈ bus.ids, id < bus.nextId

theorem Ordered.nodup {bus : Bus δ} (h : bus.Ordered) : bus.ids.Nodup :=
  h.increasing.imp Nat.ne_of_lt

theorem Ordered.ne_of_mem {bus : Bus δ} (h : bus.Ordered) {front behind : List (Mounted δ)}
    {x m : Mounted δ} (hmounted : bus.mounted = front ++ x :: behind) (hm : m ∈ front ++ behind) :
    m.id ≠ x.id := by
  have hids : (front.map (·.id) ++ x.id :: behind.map (·.id)).Nodup := by
    rw [← List.map_cons, ← List.map_append, ← hmounted]
    exact h.nodup
  rw [List.nodup_middle, List.nodup_cons, ← List.map_append] at hids
  exact fun heq => hids.1 (heq ▸ List.mem_map_of_mem hm)

theorem unmount?_eq_none {bus : Bus δ} {id : Nat} (h : bus.device? id = none) :
    bus.unmount? id = none := by
  rw [unmount?, h]
  rfl

theorem unmount?_of_mounted {bus : Bus δ} (h : bus.Ordered) {front behind : List (Mounted δ)}
    {id : Nat} {d : δ} (hmounted : bus.mounted = front ++ ⟨id, d⟩ :: behind) :
    bus.unmount? id = some (d, ⟨front ++ behind, bus.nextId⟩) := by
  have hmem : ⟨id, d⟩ ∈ bus.mounted := by simp [hmounted]
  have hfront : ∀ m ∈ front, ¬(m.id == id) = true := fun m hm => by
    simpa using h.ne_of_mem hmounted (List.mem_append_left behind hm)
  have herase : bus.mounted.eraseP (·.id == id) = front ++ behind := by
    rw [hmounted, List.eraseP_append_right _ hfront, List.eraseP_cons_of_pos (by simp)]
  rw [unmount?, (device?_eq_some_iff h.nodup).2 hmem, herase]
  rfl

theorem map_set_of_ne {ms : List (Mounted δ)} {id : Nat} (h : ∀ m ∈ ms, m.id ≠ id) (e : δ) :
    ms.map (fun m => if m.id == id then { m with device := e } else m) = ms := by
  have hmap : ms.map (fun m => if m.id == id then { m with device := e } else m) =
      ms.map fun m => m := by
    apply List.map_congr_left
    intro m hm
    simp [h m hm]
  rw [hmap, List.map_id']

theorem setDevice_eq_self {bus : Bus δ} {id : Nat} (h : bus.device? id = none) (e : δ) :
    bus.setDevice id e = bus := by
  have hne : ∀ m ∈ bus.mounted, m.id ≠ id := by
    rintro m hm rfl
    exact device?_eq_none_iff.1 h (List.mem_map_of_mem hm)
  rw [setDevice, map_set_of_ne hne]

theorem setDevice_of_mounted {bus : Bus δ} (h : bus.Ordered) {front behind : List (Mounted δ)}
    {id : Nat} {d : δ} (hmounted : bus.mounted = front ++ ⟨id, d⟩ :: behind) (e : δ) :
    bus.setDevice id e = ⟨front ++ ⟨id, e⟩ :: behind, bus.nextId⟩ := by
  have hfront : ∀ m ∈ front, m.id ≠ id := fun m hm =>
    h.ne_of_mem hmounted (List.mem_append_left behind hm)
  have hbehind : ∀ m ∈ behind, m.id ≠ id := fun m hm =>
    h.ne_of_mem hmounted (List.mem_append_right front hm)
  rw [setDevice, hmounted, List.map_append, List.map_cons, map_set_of_ne hfront,
    map_set_of_ne hbehind]
  simp

theorem ordered_empty : (empty : Bus δ).Ordered := ⟨.nil, fun _ h => nomatch h⟩

variable [Device δ]

/-- The bus behind an operation. No device is unmounted under a number that is not in use. -/
def operate (bus : Bus δ) : BusOperation δ → Bus δ
  | .mount d => (bus.mount d).2
  | .unmount id =>
    match bus.unmount? id with
    | some (_, bus) => bus
    | none => bus
  | .signal s => bus.send s

def operateAll (bus : Bus δ) (ops : List (BusOperation δ)) : Bus δ := ops.foldl operate bus

theorem operateAll_concat (bus : Bus δ) (ops : List (BusOperation δ)) (op : BusOperation δ) :
    bus.operateAll (ops ++ [op]) = (bus.operateAll ops).operate op := by
  rw [operateAll, List.foldl_append]
  rfl

theorem nextId_operate (bus : Bus δ) (op : BusOperation δ) (h : bus.nextId + mounts [op] < UInt32.size) :
    (bus.operate op).nextId = bus.nextId + mounts [op] := by
  cases op with
  | mount d => exact Nat.mod_eq_of_lt h
  | unmount id =>
    simp only [operate, unmount?]
    cases bus.device? id <;> rfl
  | signal s => exact bus.nextId_send s

/-- What is mounted behind an operation has been so before, or it has been mounted by it. -/
theorem mem_mounted_operate {bus : Bus δ} (h : bus.Ordered) (op : BusOperation δ) (id : Nat) (d : δ) :
    ⟨id, d⟩ ∈ (bus.operate op).mounted ↔
      (∃ e, ⟨id, e⟩ ∈ bus.mounted ∧ op ≠ .unmount id ∧ d = Device.receiveAll e (signals [op])) ∨
      op = .mount d ∧ bus.nextId = id := by
  cases op with
  | mount e =>
    simp only [operate, mount, List.mem_append, List.mem_singleton, Mounted.mk.injEq]
    constructor
    · rintro (hd | ⟨rfl, rfl⟩)
      · exact .inl ⟨d, hd, by rintro ⟨⟩, rfl⟩
      · exact .inr ⟨rfl, rfl⟩
    · rintro (⟨e', hd, -, rfl⟩ | ⟨heq, rfl⟩)
      · exact .inl hd
      · cases heq
        exact .inr ⟨rfl, rfl⟩
  | unmount x =>
    cases hx : bus.device? x with
    | none =>
      simp only [operate, unmount?_eq_none hx]
      constructor
      · intro hd
        refine .inl ⟨d, hd, ?_, rfl⟩
        rintro ⟨⟩
        exact device?_eq_none_iff.1 hx (List.mem_map_of_mem hd)
      · rintro (⟨e, hd, -, rfl⟩ | ⟨⟨⟩, -⟩)
        exact hd
    | some e =>
      obtain ⟨front, behind, hmounted⟩ := exists_mounted_of_device? hx
      simp only [operate, unmount?_of_mounted h hmounted]
      constructor
      · intro hd
        have hne : id ≠ x := h.ne_of_mem hmounted hd
        refine .inl ⟨d, ?_, ?_, rfl⟩
        · rw [hmounted]
          exact List.mem_append.2 ((List.mem_append.1 hd).imp_right (List.mem_cons_of_mem _))
        · rintro ⟨⟩
          exact hne rfl
      · rintro (⟨e', hd, hne, rfl⟩ | ⟨⟨⟩, -⟩)
        rw [hmounted, List.mem_append, List.mem_cons] at hd
        obtain hd | heq | hd := hd
        · exact List.mem_append_left _ hd
        · cases heq
          exact absurd rfl hne
        · exact List.mem_append_right _ hd
  | signal s =>
    simp only [operate, mounted_send, List.mem_map, Mounted.mk.injEq]
    constructor
    · rintro ⟨m, hm, rfl, rfl⟩
      exact .inl ⟨m.device, hm, by rintro ⟨⟩, rfl⟩
    · rintro (⟨e, he, -, rfl⟩ | ⟨⟨⟩, -⟩)
      exact ⟨_, he, rfl, rfl⟩

theorem ordered_operate {bus : Bus δ} (h : bus.Ordered) (op : BusOperation δ)
    (hbound : bus.nextId + mounts [op] < UInt32.size) : (bus.operate op).Ordered := by
  have hnext := bus.nextId_operate op hbound
  have hbelow : ∀ id ∈ (bus.operate op).ids, id < (bus.operate op).nextId := by
    intro id hid
    obtain ⟨⟨_, d⟩, hd, rfl⟩ := List.mem_map.1 hid
    rw [hnext]
    obtain ⟨e, he, -⟩ | ⟨rfl, rfl⟩ := (mem_mounted_operate h op _ d).1 hd
    · have hid : (Mounted.mk _ e).id ∈ bus.ids := List.mem_map_of_mem he
      exact Nat.lt_add_right _ (h.below _ hid)
    · exact Nat.lt_succ_self _
  refine ⟨?_, hbelow⟩
  cases op with
  | mount d =>
    have hids : (bus.operate (.mount d)).ids = bus.ids ++ [bus.nextId] := by
      simp [operate, mount, ids]
    rw [hids, List.pairwise_append]
    exact ⟨h.increasing, List.pairwise_singleton .., fun id hid x hx => by
      rw [List.mem_singleton.1 hx]
      exact h.below id hid⟩
  | unmount id =>
    simp only [operate, unmount?]
    cases bus.device? id with
    | none => exact h.increasing
    | some d => exact h.increasing.sublist (bus.mounted.eraseP_sublist.map _)
  | signal s =>
    rw [operate, ids_send]
    exact h.increasing

/-- As long as the counter does not go round, it counts the mounts. -/
theorem ordered_operateAll {ops : List (BusOperation δ)} (h : mounts ops < UInt32.size) :
    (empty.operateAll ops).Ordered ∧ (empty.operateAll ops).nextId = mounts ops := by
  induction ops using List.reverseRecOn with
  | nil => exact ⟨ordered_empty, rfl⟩
  | append_singleton ops op ih =>
    obtain ⟨hordered, hnext⟩ := ih (mounts_lt_of_append h)
    rw [mounts_append, ← hnext] at h
    rw [operateAll_concat, mounts_append, ← hnext]
    exact ⟨ordered_operate hordered op h, nextId_operate _ op h⟩

theorem fst_mount {ops : List (BusOperation δ)} (h : mounts ops < UInt32.size) (d : δ) :
    ((empty.operateAll ops).mount d).1 = mounts ops := (ordered_operateAll h).2

/-- A mount among operations from the start has given out the number, and those behind it follow. -/
def Mounts (ops : List (BusOperation δ)) (id : Nat) (d : δ) (since : List (BusOperation δ)) : Prop :=
  ∃ before, ops = before ++ .mount d :: since ∧ ((empty.operateAll before).mount d).1 = id

/-- The number was given out for a device that has not been unmounted since, and the signals since then
have brought it to this state. -/
def Names (ops : List (BusOperation δ)) (id : Nat) (d : δ) : Prop :=
  ∃ e since, Mounts ops id e since ∧ .unmount id ∉ since ∧ d = Device.receiveAll e (signals since)

theorem mounts_concat_iff {ops since : List (BusOperation δ)} {op : BusOperation δ} {id : Nat} {d : δ} :
    Mounts (ops ++ [op]) id d since ↔
      (∃ earlier, since = earlier ++ [op] ∧ Mounts ops id d earlier) ∨
      since = [] ∧ op = .mount d ∧ (empty.operateAll ops).nextId = id := by
  constructor
  · rintro ⟨before, heq, hid⟩
    obtain rfl | ⟨earlier, last, rfl⟩ := List.eq_nil_or_concat since
    · obtain ⟨rfl, hop⟩ := List.append_inj' heq rfl
      obtain rfl := List.singleton_inj.1 hop
      exact .inr ⟨rfl, rfl, hid⟩
    · rw [List.concat_eq_append, ← List.cons_append, ← List.append_assoc] at heq
      obtain ⟨rfl, hop⟩ := List.append_inj' heq rfl
      obtain rfl := List.singleton_inj.1 hop
      exact .inl ⟨earlier, List.concat_eq_append, before, rfl, hid⟩
  · rintro (⟨earlier, rfl, before, rfl, hid⟩ | ⟨rfl, rfl, hid⟩)
    · exact ⟨before, by simp, hid⟩
    · exact ⟨ops, rfl, hid⟩

theorem names_concat_iff {ops : List (BusOperation δ)} {op : BusOperation δ} {id : Nat} {d : δ} :
    Names (ops ++ [op]) id d ↔
      (∃ e, Names ops id e ∧ op ≠ .unmount id ∧ d = Device.receiveAll e (signals [op])) ∨
      op = .mount d ∧ (empty.operateAll ops).nextId = id := by
  simp only [Names, mounts_concat_iff]
  constructor
  · rintro ⟨e, since, ⟨earlier, rfl, hmounts⟩ | ⟨rfl, rfl, hid⟩, hkept, rfl⟩
    · simp only [List.mem_append, List.mem_singleton, not_or] at hkept
      refine .inl ⟨_, ⟨e, earlier, hmounts, hkept.1, rfl⟩, Ne.symm hkept.2, ?_⟩
      rw [signals_append, Device.receiveAll_append]
    · exact .inr ⟨rfl, hid⟩
  · rintro (⟨_, ⟨e, earlier, hmounts, hkept, rfl⟩, hop, rfl⟩ | ⟨rfl, hid⟩)
    · refine ⟨e, earlier ++ [op], .inl ⟨earlier, rfl, hmounts⟩, ?_, ?_⟩
      · simp [hkept, Ne.symm hop]
      · rw [signals_append, Device.receiveAll_append]
    · exact ⟨d, [], .inr ⟨rfl, rfl, hid⟩, nofun, rfl⟩

/-- What is mounted in the end is what the numbers given out still name. -/
theorem mem_mounted_operateAll {ops : List (BusOperation δ)} (h : mounts ops < UInt32.size) (id : Nat)
    (d : δ) : ⟨id, d⟩ ∈ (empty.operateAll ops).mounted ↔ Names ops id d := by
  induction ops using List.reverseRecOn generalizing d with
  | nil =>
    refine ⟨nofun, ?_⟩
    rintro ⟨e, since, ⟨before, heq, -⟩, -⟩
    simp at heq
  | append_singleton ops op ih =>
    have hbefore := mounts_lt_of_append h
    rw [operateAll_concat, mem_mounted_operate (ordered_operateAll hbefore).1, names_concat_iff]
    simp only [ih hbefore]

/-- A number that has been given out and names nothing does so for ever. -/
theorem not_mem_ids_operateAll {ops rest : List (BusOperation δ)}
    (h : mounts (ops ++ rest) < UInt32.size) {id : Nat} (hgiven : id < mounts ops)
    (hid : id ∉ (empty.operateAll ops).ids) : id ∉ (empty.operateAll (ops ++ rest)).ids := by
  induction rest using List.reverseRecOn with
  | nil => rwa [List.append_nil]
  | append_singleton rest op ih =>
    rw [← List.append_assoc] at h ⊢
    have hbefore := mounts_lt_of_append h
    obtain ⟨hordered, hnext⟩ := ordered_operateAll hbefore
    rw [operateAll_concat]
    intro hmem
    obtain ⟨⟨_, d⟩, hd, rfl⟩ := List.mem_map.1 hmem
    obtain ⟨e, he, -⟩ | ⟨-, hnew⟩ := (mem_mounted_operate hordered op _ d).1 hd
    · exact ih hbefore (List.mem_map_of_mem (f := (·.id)) he)
    · rw [hnext, mounts_append] at hnew
      dsimp only at hgiven
      omega

theorem lt_mounts_of_mounts {ops since : List (BusOperation δ)} {id : Nat} {d : δ}
    (h : mounts ops < UInt32.size) (hmounts : Mounts ops id d since) : id < mounts ops := by
  obtain ⟨before, rfl, rfl⟩ := hmounts
  rw [fst_mount (mounts_lt_of_append h), mounts_append, mounts_cons_mount]
  omega

theorem device?_of_unmounted {first since rest : List (BusOperation δ)} {id : Nat} {d : δ}
    (h : mounts (first ++ .unmount id :: rest) < UInt32.size) (hmounts : Mounts first id d since) :
    (empty.operateAll (first ++ .unmount id :: rest)).device? id = none := by
  have hfirst := mounts_lt_of_append h
  have hgiven : id < mounts (first ++ [.unmount id]) := by
    rw [mounts_append]
    exact Nat.lt_add_right _ (lt_mounts_of_mounts hfirst hmounts)
  have hgone : id ∉ (empty.operateAll (first ++ [.unmount id])).ids := by
    rw [operateAll_concat]
    intro hmem
    obtain ⟨⟨_, e⟩, he, rfl⟩ := List.mem_map.1 hmem
    obtain ⟨_, -, hne, -⟩ | ⟨⟨⟩, -⟩ :=
      (mem_mounted_operate (ordered_operateAll hfirst).1 _ _ e).1 he
    exact hne rfl
  have hsplit : first ++ .unmount id :: rest = first ++ [.unmount id] ++ rest := by simp
  rw [hsplit] at h ⊢
  exact device?_eq_none_iff.2 (not_mem_ids_operateAll h hgiven hgone)

theorem fst_mount_lt {first later behind : List (BusOperation δ)} {d e : δ}
    (h : mounts (first ++ .mount d :: later ++ .mount e :: behind) < UInt32.size) :
    ((empty.operateAll first).mount d).1 < ((empty.operateAll (first ++ .mount d :: later)).mount e).1 := by
  have hlater := mounts_lt_of_append h
  rw [fst_mount (mounts_lt_of_append hlater), fst_mount hlater, mounts_append, mounts_cons_mount]
  omega

/-- On a bus that began empty and has seen fewer than 2³² mounts, the numbers of what is mounted grow in
the order of mounting. A number leads to the device for which it was given out, in the state to which
the signals since then have brought it, and to nothing if it was given out for none, or if this device
has been unmounted, which no later mount undoes. By its number a device can be taken off the bus or set
to another state, and all others keep their places and their states. -/
theorem handles_name_devices (ops : List (BusOperation δ)) (h : mounts ops < UInt32.size) :
    let bus := empty.operateAll ops
    bus.ids.Pairwise (· < ·) ∧
    (∀ first d later e behind, ops = first ++ .mount d :: later ++ .mount e :: behind →
      ((empty.operateAll first).mount d).1 <
        ((empty.operateAll (first ++ .mount d :: later)).mount e).1) ∧
    ∀ id,
      (∀ d, bus.device? id = some d ↔ Names ops id d) ∧
      (∀ first d since rest, Mounts first id d since → ops = first ++ .unmount id :: rest →
        bus.device? id = none) ∧
      (bus.device? id = none → bus.unmount? id = none ∧ ∀ e, bus.setDevice id e = bus) ∧
      ∀ d, bus.device? id = some d → ∃ front behind, bus.mounted = front ++ ⟨id, d⟩ :: behind ∧
        bus.unmount? id = some (d, ⟨front ++ behind, bus.nextId⟩) ∧
        ∀ e, bus.setDevice id e = ⟨front ++ ⟨id, e⟩ :: behind, bus.nextId⟩ := by
  intro bus
  have hordered : bus.Ordered := (ordered_operateAll h).1
  refine ⟨hordered.increasing, ?_, fun id => ⟨fun d => ?_, ?_, fun hnone => ?_, fun d hd => ?_⟩⟩
  · rintro first d later e behind rfl
    exact fst_mount_lt h
  · rw [device?_eq_some_iff hordered.nodup]
    exact mem_mounted_operateAll h id d
  · rintro first d since rest hmounts rfl
    exact device?_of_unmounted h hmounts
  · exact ⟨unmount?_eq_none hnone, setDevice_eq_self hnone⟩
  · obtain ⟨front, behind, hmounted⟩ := exists_mounted_of_device? hd
    exact ⟨front, behind, hmounted, unmount?_of_mounted hordered hmounted,
      setDevice_of_mounted hordered hmounted⟩

/-- A memory is unmounted and mounted again, and the other one stays and stores what is written to the
bus. The old number leads nowhere. -/
theorem handles_name_devices_remounted :
    let x : Memory := ⟨1, #[7, 8], by decide, by decide, rfl⟩
    let y : Memory := ⟨1, #[0, 0], by decide, by decide, rfl⟩
    let ops : List (BusOperation Memory) :=
      [.mount x, .mount y, .signal (.write 2 5), .unmount 0, .unmount 6, .mount x, .signal (.write 1 9)]
    let bus := empty.operateAll ops
    mounts ops < UInt32.size ∧ bus.ids.Pairwise (· < ·) ∧ bus.device? 0 = none ∧
      bus.unmount? 0 = none ∧
      ∃ d front behind, Names ops 1 d ∧ d.get 0 = 5 ∧ d.get 1 = 9 ∧
        bus.unmount? 1 = some (d, ⟨front ++ behind, bus.nextId⟩) := by
  intro x y ops bus
  have h : mounts ops < UInt32.size := by decide
  obtain ⟨hincreasing, -, hnumber⟩ := handles_name_devices ops h
  obtain ⟨-, hunmounted, hnone, -⟩ := hnumber 0
  have hzero : bus.device? 0 = none :=
    hunmounted [.mount x, .mount y, .signal (.write 2 5)] x [.mount y, .signal (.write 2 5)]
      [.unmount 6, .mount x, .signal (.write 1 9)] ⟨[], rfl, rfl⟩ rfl
  obtain ⟨hnames, -, -, hsome⟩ := hnumber 1
  have hone : bus.device? 1 = some ((y.set 2 5).set 1 9) := rfl
  obtain ⟨front, behind, -, hunmount, -⟩ := hsome _ hone
  exact ⟨h, hincreasing, hzero, (hnone hzero).1, _, front, behind, (hnames _).1 hone,
    by decide +kernel, by decide +kernel, hunmount⟩

end Bus

end Octet
