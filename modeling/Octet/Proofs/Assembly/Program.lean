import Octet.Assembly.Line

/-! # Programs

What a source text says, read line by line and without tokens: a program is its items in their order.
The counter in front of an item is the number of bytes since the last skip, counted from the target
of that skip. A program has its image in two passes, of which the first binds the labels.
-/

namespace Octet

/-- What a source text asks for; an address asks for two bytes, its halves. -/
inductive Item where
  | skip (target : Nat)
  | label (name : Text)
  | instruction (op : Opcode)
  | literal (text : Text)
  | half (h : Half) (name : Text)
deriving DecidableEq, Repr

abbrev Program := List Item

/-- The number that a text of digits stands for, leading zeros allowed. -/
def Numeral.ofText? (radix : Nat) (t : Text) : Option Nat :=
  if t = [] then none else (t.mapM (digit? radix)).map (value radix)

/-- The number that a literal stands for in its base. -/
def ByteLiteral.value? : Text → Option Nat
  | '0' :: 'x' :: digits => Numeral.ofText? 16 digits
  | '0' :: 'b' :: digits => Numeral.ofText? 2 digits
  | digits => Numeral.ofText? 10 digits

namespace Item

def target? : Item → Option Nat
  | .skip target => some target
  | _ => none

def defined? : Item → Option Text
  | .label name => some name
  | _ => none

def reference? : Item → Option Text
  | .half _ name => some name
  | _ => none

def literal? : Item → Option Text
  | .literal text => some text
  | _ => none

def takesByte : Item → Bool
  | .skip _ | .label _ => false
  | _ => true

/-- As which operand of an instruction the item can stand. -/
def operandKind? : Item → Option OperandKind
  | .literal _ => some .byteLiteral
  | .half _ _ => some .addressByte
  | _ => none

/-- The address counter behind an item, from the one in front of it. -/
def next (n : Nat) : Item → Nat
  | .skip target => target
  | .label _ => n
  | _ => n + 1

/-- Whether the item can stand where the address counter is `n`. -/
def FitsAt (n : Nat) : Item → Prop
  | .skip target => n ≤ target ∧ target ≤ 65535
  | _ => n ≤ 65535

theorem le_next {n : Nat} {item : Item} (h : item.FitsAt n) : n ≤ item.next n := by
  cases item with
  | skip target => exact h.1
  | label name => exact Nat.le_refl n
  | _ => exact Nat.le_succ n

theorem le_of_fitsAt {n : Nat} {item : Item} (h : item.FitsAt n) : n ≤ 65535 := by
  cases item with
  | skip target => exact Nat.le_trans h.1 h.2
  | _ => exact h

theorem next_eq_succ {item : Item} (h : item.takesByte = true) (n : Nat) :
    item.next n = n + 1 := by
  cases item <;> first | rfl | cases h

def ofPiece? : Text → Option Program
  | '@' :: rest =>
    match Text.dropSuffix? rest Half.high.suffix, Text.dropSuffix? rest Half.low.suffix with
    | some name, _ => if Pattern.isName name then some [.half .high name] else none
    | none, some name => if Pattern.isName name then some [.half .low name] else none
    | none, none => if Pattern.isName rest then some [.half .high rest, .half .low rest] else none
  | t =>
    match t.dropSuffix? [':'] with
    | some name => if Pattern.isLabelName name then some [.label name] else none
    | none => if Pattern.isByteLiteral t && !Pattern.isMnemonic t then some [.literal t] else none

def ofPieces? (pieces : List Text) : Option Program := (pieces.mapM ofPiece?).map List.flatten

/-- An instruction with its operands, no more and no fewer. -/
def instruction? : List Text → Option Program
  | [] => none
  | mnemonic :: operands => do
    let op ← Opcode.ofMnemonic? mnemonic
    let items ← ofPieces? operands
    if items.map operandKind? = op.operands.map some then some (.instruction op :: items) else none

def skip? (code : Text) : Option Item :=
  match code.words with
  | [name, argument] =>
    if name = "#SKIPTO".toList then (Numeral.ofDecimal? argument).map .skip else none
  | _ => none

def ofLine? (raw : Text) : Option Program :=
  match Line.code raw with
  | '#' :: rest => (skip? ('#' :: rest)).map ([·])
  | code => instruction? code.pieces <|> ofPieces? code.pieces

end Item

namespace Program

/-- The program of a source text, if each of its lines can be read. -/
def ofSource? (source : Text) : Option Program :=
  ((source.splitOn '\n').mapM Item.ofLine?).map List.flatten

def counter (before : Program) : Nat :=
  (before.reverse.findSome? Item.target?).getD 0 +
    (before.reverse.takeWhile (·.target?.isNone)).countP Item.takesByte

def placed (p : Program) : List (Nat × Item) :=
  p.zipIdx.map fun (item, i) => (counter (p.take i), item)

/-- The items with the address counter that is `n` in front of the first of them. -/
def placedFrom (n : Nat) : Program → List (Nat × Item)
  | [] => []
  | item :: p => (n, item) :: placedFrom (item.next n) p

@[simp] theorem counter_nil : counter [] = 0 := rfl

theorem counter_concat (before : Program) (item : Item) :
    counter (before ++ [item]) = item.next (counter before) := by
  simp only [counter, List.reverse_append, List.reverse_singleton, List.singleton_append,
    List.findSome?_cons, List.takeWhile_cons]
  cases item <;> simp [Item.target?, Item.takesByte, Item.next, List.countP_cons, Nat.add_assoc]

theorem map_snd_placedFrom (n : Nat) (p : Program) : (placedFrom n p).map (·.2) = p := by
  induction p generalizing n with
  | nil => rfl
  | cons item p ih => simp only [placedFrom, List.map_cons, ih]

theorem placed_eq_placedFrom (p : Program) : p.placed = placedFrom 0 p := by
  have general : ∀ (q before : Program), (q.zipIdx before.length).map
      (fun x => (counter ((before ++ q).take x.2), x.1)) = placedFrom (counter before) q := by
    intro q
    induction q with
    | nil => intro before; rfl
    | cons item q ih =>
      intro before
      have h := ih (before ++ [item])
      simp only [List.length_append, List.length_singleton, List.append_assoc,
        List.singleton_append, counter_concat] at h
      simp only [List.zipIdx_cons, List.map_cons, placedFrom, h]
      rw [List.take_left]
  exact general p []

def labels (p : Program) : List Text := p.filterMap Item.defined?

theorem mem_labels_cons {item : Item} {p : Program} {name : Text} :
    name ∈ labels (item :: p) ↔ item.defined? = some name ∨ name ∈ labels p := by
  simp [labels]

theorem nodup_labels_cons {item : Item} {p : Program} : (labels (item :: p)).Nodup ↔
    (∀ name, item.defined? = some name → name ∉ labels p) ∧ (labels p).Nodup := by
  cases h : item.defined? with
  | none => simp [labels, h]
  | some name => simp [labels, h]

structure WellFormed (p : Program) : Prop where
  labels_nodup : p.labels.Nodup
  references_defined : ∀ name ∈ p.filterMap Item.reference?, name ∈ p.labels
  literals_fit : ∀ text ∈ p.filterMap Item.literal?, ∃ n, ByteLiteral.value? text = some n ∧ n ≤ 255
  placed_fit : ∀ x ∈ p.placed, x.2.FitsAt x.1

def bindings (p : Program) : List (Text × Nat) :=
  p.placed.filterMap fun (n, item) => item.defined?.map (·, n)

/-- The labels with their addresses, the address counter being `n` in front of the first item. -/
def bindingsFrom (n : Nat) (p : Program) : List (Text × Nat) :=
  (placedFrom n p).filterMap fun (n, item) => item.defined?.map (·, n)

theorem bindings_eq_bindingsFrom (p : Program) : p.bindings = bindingsFrom 0 p := by
  rw [bindings, placed_eq_placedFrom, bindingsFrom]

theorem lookup_bindingsFrom_cons (n : Nat) (item : Item) (p : Program) (name : Text) :
    (bindingsFrom n (item :: p)).lookup name =
      if item.defined? = some name then some n else (bindingsFrom (item.next n) p).lookup name := by
  rw [bindingsFrom, placedFrom]
  cases item with
  | label other =>
    by_cases h : other = name
    · subst h
      simp [Item.defined?]
    · have : (name == other) = false := by simpa using Ne.symm h
      simp [Item.defined?, List.lookup_cons, h, this, bindingsFrom]
  | _ => rfl

theorem lookup_bindingsFrom (n : Nat) (p : Program) (name : Text) :
    ((bindingsFrom n p).lookup name).isSome = true ↔ name ∈ p.labels := by
  induction p generalizing n with
  | nil => simp [bindingsFrom, placedFrom, labels]
  | cons item p ih =>
    rw [lookup_bindingsFrom_cons, mem_labels_cons, ← ih (item.next n)]
    split <;> simp [*]

/-- The byte that an item stands for under a binding of the labels. -/
def byte? (bindings : List (Text × Nat)) : Item → Option Nat
  | .instruction op => some op.id.toNat
  | .literal text => ByteLiteral.value? text
  | .half .high name => (bindings.lookup name).map (· / 256)
  | .half .low name => (bindings.lookup name).map (· % 256)
  | .skip _ | .label _ => none

/-- The bytes with their addresses. -/
def image (p : Program) : List (Nat × Nat) :=
  p.placed.filterMap fun (n, item) => (byte? p.bindings item).map (n, ·)

theorem takesByte_of_byte? {bindings : List (Text × Nat)} {item : Item} {b : Nat}
    (h : byte? bindings item = some b) : item.takesByte = true := by
  cases item <;> first | rfl | cases h

theorem le_of_mem_placedFrom {n : Nat} {p : Program}
    (hf : ∀ x ∈ placedFrom n p, x.2.FitsAt x.1) : ∀ x ∈ placedFrom n p, n ≤ x.1 := by
  induction p generalizing n with
  | nil => simp [placedFrom]
  | cons item p ih =>
    rw [placedFrom, List.forall_mem_cons] at hf
    intro x hx
    rcases List.mem_cons.1 hx with rfl | hx
    · exact Nat.le_refl n
    · have hnext : n ≤ item.next n := Item.le_next hf.1
      have htail := ih hf.2 x hx
      omega

/-- Nothing stands where a byte stands before it. -/
theorem pairwise_placedFrom {n : Nat} {p : Program} (hf : ∀ x ∈ placedFrom n p, x.2.FitsAt x.1) :
    (placedFrom n p).Pairwise fun x y => x.2.takesByte = true → x.1 < y.1 := by
  induction p generalizing n with
  | nil => exact .nil
  | cons item p ih =>
    rw [placedFrom, List.forall_mem_cons] at hf
    rw [placedFrom, List.pairwise_cons]
    refine ⟨fun y hy hb => ?_, ih hf.2⟩
    have hle := le_of_mem_placedFrom hf.2 y hy
    rw [Item.next_eq_succ hb] at hle
    exact hle

theorem pairwise_image {p : Program} (hf : ∀ x ∈ p.placed, x.2.FitsAt x.1) :
    p.image.Pairwise (·.1 < ·.1) := by
  rw [placed_eq_placedFrom] at hf
  rw [image, placed_eq_placedFrom, List.pairwise_filterMap]
  refine (pairwise_placedFrom hf).imp ?_
  intro x y hlt e he e' he'
  obtain ⟨b, hb, rfl⟩ := Option.map_eq_some_iff.1 he
  obtain ⟨b', -, rfl⟩ := Option.map_eq_some_iff.1 he'
  exact hlt (takesByte_of_byte? hb)

end Program

end Octet
