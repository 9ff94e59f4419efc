import Octet.Proofs.Bus.Signals
import Octet.RangeLimiter

/-! # Limiters as filters

A limiter is nothing but a filter before its device. What gets through to the device are the resets and
those transfers that the setting of the moment admits, and its state is the one it would have reached by
receiving them without a limiter. So it is for any type of devices, limiters and sums of other types
among them, and however often the setting is changed and the device exchanged.
-/

namespace Octet

inductive LimiterOperation (δ : Type) where
  | signal (s : Signal)
  | setEnabled (enabled : Bool)
  | setRange (range : AddressRange)
  | replace (d : δ)

inductive LimiterAnswer (δ : Type) where
  | reply (r : Reply)
  | done
  | replaced (old : δ)

/-- Whether a limiter limits, and to which range. -/
structure LimiterSetting where
  enabled : Bool
  range : AddressRange
deriving DecidableEq, Repr

/-- A reset always gets through. A transfer does if nothing is limited, or if its address, written with
sixteen binary digits, begins with the range. -/
def LimiterSetting.Admits (s : LimiterSetting) : Signal → Prop
  | .read a | .write a _ => s.enabled = false ∨ s.range.text <+: Numeral.fixed 2 16 a.toNat
  | .reset => True

instance (s : LimiterSetting) : (x : Signal) → Decidable (s.Admits x)
  | .read a | .write a _ =>
    inferInstanceAs (Decidable (s.enabled = false ∨ s.range.text <+: Numeral.fixed 2 16 a.toNat))
  | .reset => inferInstanceAs (Decidable True)

namespace LimiterOperation

variable {δ : Type}

/-- The setting behind an operation. It is not changed by what passes, nor by another device. -/
def settingFrom (s : LimiterSetting) : LimiterOperation δ → LimiterSetting
  | .setEnabled enabled => { s with enabled }
  | .setRange range => { s with range }
  | _ => s

def settingAfter (s : LimiterSetting) (ops : List (LimiterOperation δ)) : LimiterSetting :=
  ops.foldl settingFrom s

/-- The signals among operations that get through, each by the setting in force at its time. -/
def delivered (s : LimiterSetting) : List (LimiterOperation δ) → List Signal
  | [] => []
  | .signal x :: ops => if s.Admits x then x :: delivered s ops else delivered s ops
  | op :: ops => delivered (op.settingFrom s) ops

end LimiterOperation

open LimiterOperation

namespace RangeLimiter

variable {δ : Type}

def setting (l : RangeLimiter δ) : LimiterSetting := ⟨l.enabled, l.range⟩

theorem passes_iff (l : RangeLimiter δ) (a : Address) :
    l.passes a = true ↔ l.enabled = false ∨ l.range.text <+: Numeral.fixed 2 16 a.toNat := by
  rw [passes, Bool.or_eq_true, Bool.not_eq_true', AddressRange.covers_iff]

/-- The device behind a limiter after operations is the one that it began with, or the last one that has
been put there. With it stand the setting at that time and the operations since then. -/
inductive Wraps (l : RangeLimiter δ) :
    List (LimiterOperation δ) → δ → LimiterSetting → List (LimiterOperation δ) → Prop
  | initial {ops : List (LimiterOperation δ)} (h : ∀ d, .replace d ∉ ops) :
    Wraps l ops l.device l.setting ops
  | replaced (before : List (LimiterOperation δ)) (d : δ) {since : List (LimiterOperation δ)}
    (h : ∀ e, .replace e ∉ since) :
    Wraps l (before ++ .replace d :: since) d (settingAfter l.setting before) since

theorem exists_wraps (l : RangeLimiter δ) (ops : List (LimiterOperation δ)) :
    ∃ d s since, l.Wraps ops d s since := by
  have hlast : (∀ d, .replace d ∉ ops) ∨
      ∃ before d since, ops = before ++ .replace d :: since ∧ ∀ e, .replace e ∉ since := by
    induction ops with
    | nil => exact .inl fun d hd => nomatch hd
    | cons op ops ih =>
      obtain hnone | ⟨before, d, since, rfl, hnone⟩ := ih
      · cases op with
        | replace d => exact .inr ⟨[], d, ops, rfl, hnone⟩
        | signal | setEnabled | setRange => exact .inl fun e => by simp [hnone e]
      · exact .inr ⟨op :: before, d, since, rfl, hnone⟩
  obtain hnone | ⟨before, d, since, rfl, hnone⟩ := hlast
  · exact ⟨_, _, _, .initial hnone⟩
  · exact ⟨_, _, _, .replaced before d hnone⟩

variable [Device δ]

def operate (l : RangeLimiter δ) : LimiterOperation δ → LimiterAnswer δ × RangeLimiter δ
  | .signal s => (.reply (Device.reply l s), Device.receive l s)
  | .setEnabled enabled => (.done, l.setEnabled enabled)
  | .setRange range => (.done, l.setRange range)
  | .replace d => (.replaced (l.replaceDevice d).1, (l.replaceDevice d).2)

def operateAll (l : RangeLimiter δ) (ops : List (LimiterOperation δ)) : RangeLimiter δ :=
  ops.foldl (fun l op => (l.operate op).2) l

theorem of_admits {l : RangeLimiter δ} {x : Signal} (h : l.setting.Admits x) :
    Device.reply l x = Device.reply l.device x ∧
      Device.receive l x = { l with device := Device.receive l.device x } := by
  cases x with
  | read a =>
    have hpasses : l.passes a = true := (l.passes_iff a).2 h
    simp only [Device.reply, Device.receive, read_eq, hpasses, ↓reduceIte, and_self]
  | write a v =>
    have hpasses : l.passes a = true := (l.passes_iff a).2 h
    simp only [Device.reply, Device.receive, write_eq, hpasses, ↓reduceIte, and_self]
  | reset => exact ⟨rfl, rfl⟩

theorem of_not_admits {l : RangeLimiter δ} {x : Signal} (h : ¬l.setting.Admits x) :
    Device.reply l x = x.refusal ∧ Device.receive l x = l := by
  cases x with
  | read a =>
    have hpasses : ¬l.passes a = true := fun hp => h ((l.passes_iff a).1 hp)
    simp only [Device.reply, Device.receive, read_eq, hpasses]
    exact ⟨rfl, rfl⟩
  | write a v =>
    have hpasses : ¬l.passes a = true := fun hp => h ((l.passes_iff a).1 hp)
    simp only [Device.reply, Device.receive, write_eq, hpasses]
    exact ⟨rfl, rfl⟩
  | reset => exact absurd trivial h

theorem setting_receive (l : RangeLimiter δ) (x : Signal) :
    (Device.receive l x).setting = l.setting := by
  by_cases h : l.setting.Admits x
  · rw [(of_admits h).2]
    rfl
  · rw [(of_not_admits h).2]

theorem setting_operate (l : RangeLimiter δ) (op : LimiterOperation δ) :
    (l.operate op).2.setting = op.settingFrom l.setting := by
  cases op with
  | signal x => exact l.setting_receive x
  | setEnabled | setRange | replace => rfl

theorem operateAll_cons (l : RangeLimiter δ) (op : LimiterOperation δ)
    (ops : List (LimiterOperation δ)) : l.operateAll (op :: ops) = (l.operate op).2.operateAll ops :=
  rfl

theorem operateAll_append (l : RangeLimiter δ) (ops rest : List (LimiterOperation δ)) :
    l.operateAll (ops ++ rest) = (l.operateAll ops).operateAll rest :=
  List.foldl_append

theorem setting_operateAll (l : RangeLimiter δ) (ops : List (LimiterOperation δ)) :
    (l.operateAll ops).setting = settingAfter l.setting ops := by
  induction ops generalizing l with
  | nil => rfl
  | cons op ops ih =>
    rw [operateAll_cons, ih, setting_operate]
    rfl

/-- As long as it is not exchanged, a device receives what gets through to it. -/
theorem device_operateAll (l : RangeLimiter δ) {ops : List (LimiterOperation δ)}
    (h : ∀ d, .replace d ∉ ops) :
    (l.operateAll ops).device = Device.receiveAll l.device (delivered l.setting ops) := by
  induction ops generalizing l with
  | nil => rfl
  | cons op ops ih =>
    have hrest (d : δ) : .replace d ∉ ops := fun hd => h d (List.mem_cons_of_mem _ hd)
    rw [operateAll_cons, ih _ hrest, setting_operate]
    cases op with
    | signal x =>
      by_cases hx : l.setting.Admits x
      · rw [delivered, if_pos hx, operate, (of_admits hx).2]
        rfl
      · rw [delivered, if_neg hx, operate, (of_not_admits hx).2]
        rfl
    | setEnabled | setRange => rfl
    | replace d => exact absurd (List.mem_cons_self ..) (h d)

theorem device_of_wraps {l : RangeLimiter δ} {ops since : List (LimiterOperation δ)} {d : δ}
    {s : LimiterSetting} (h : l.Wraps ops d s since) :
    (l.operateAll ops).device = Device.receiveAll d (delivered s since) := by
  cases h with
  | initial hnone => exact l.device_operateAll hnone
  | replaced before d hnone =>
    rw [operateAll_append, operateAll_cons, device_operateAll _ hnone, setting_operate,
      setting_operateAll]
    rfl

/-- After any operations the device behind a limiter, put there by one of them or there from the begin,
has received since then exactly the resets and the transfers that were admitted at their time, and has
come to the state it reaches by receiving them on its own. A transfer that is admitted next is answered
by this device, one that is not is answered by nobody; and an exchange hands back the device as it is
and leaves the setting, which only the operations on it change. -/
theorem filters_signals (l : RangeLimiter δ) (ops : List (LimiterOperation δ)) :
    let used := l.operateAll ops
    used.setting = settingAfter l.setting ops ∧
    (∃ d s since, l.Wraps ops d s since ∧
      used.device = Device.receiveAll d (delivered s since)) ∧
    (∀ x, (used.operate (.signal x)).1 =
      .reply (if (settingAfter l.setting ops).Admits x then Device.reply used.device x
        else x.refusal)) ∧
    ∀ d, (used.operate (.replace d)).1 = .replaced used.device ∧
      (used.operate (.replace d)).2.device = d ∧
      (used.operate (.replace d)).2.setting = used.setting := by
  intro used
  have hsetting : used.setting = settingAfter l.setting ops := l.setting_operateAll ops
  obtain ⟨d, s, since, hwraps⟩ := l.exists_wraps ops
  refine ⟨hsetting, ⟨d, s, since, hwraps, device_of_wraps hwraps⟩, fun x => ?_, fun d => ?_⟩
  · rw [← hsetting, operate]
    by_cases hx : used.setting.Admits x
    · rw [if_pos hx, (of_admits hx).1]
    · rw [if_neg hx, (of_not_admits hx).1]
  · exact ⟨rfl, rfl, rfl⟩

end RangeLimiter

end Octet
