import Octet.Proofs.Assembly.OperandCheck
import Octet.Proofs.Text.Words

/-! # Tokens and the program they say

A source text has a program exactly if its tokens pass the operand check without an error and each of
them says an item; the items are then those of the program, one for each token.
-/

namespace Octet

open Operands

/-- The tokens are unerrored and say the items. -/
def Says (ts : List Token) (p : Program) : Prop := Clean ts ∧ ts.mapM Token.item? = some p

namespace Says

theorem nil_iff {p : Program} : Says [] p ↔ p = [] := by
  simp [Says, eq_comm]

theorem append {ss ts : List Token} {p q : Program} (hs : Says ss p) (ht : Says ts q) :
    Says (ss ++ ts) (p ++ q) := by
  refine ⟨clean_append.2 ⟨hs.1, ht.1⟩, ?_⟩
  rw [List.mapM_append, hs.2, ht.2]
  rfl

theorem of_append {ss ts : List Token} {r : Program} (h : Says (ss ++ ts) r) :
    ∃ p q, Says ss p ∧ Says ts q ∧ r = p ++ q := by
  obtain ⟨hc, hm⟩ := h
  obtain ⟨hs, ht⟩ := clean_append.1 hc
  rw [List.mapM_append] at hm
  simp only [bind, Option.bind_eq_some_iff, pure, Option.some.injEq] at hm
  obtain ⟨p, hp, q, hq, rfl⟩ := hm
  exact ⟨p, q, ⟨hs, hp⟩, ⟨ht, hq⟩, rfl⟩

theorem cons_iff {t : Token} {ts : List Token} {r : Program} : Says (t :: ts) r ↔
    t.isErrored = false ∧ ∃ item p, t.item? = some item ∧ Says ts p ∧ r = item :: p := by
  simp only [Says, clean_cons, List.mapM_cons, bind, Option.bind_eq_some_iff, pure,
    Option.some.injEq]
  constructor
  · rintro ⟨⟨ht, hc⟩, item, hi, p, hp, rfl⟩
    exact ⟨ht, item, p, hi, ⟨hc, hp⟩, rfl⟩
  · rintro ⟨ht, item, p, hi, ⟨hc, hp⟩, rfl⟩
    exact ⟨⟨ht, hc⟩, item, hi, p, hp, rfl⟩

end Says

theorem splitAddresses_append (ss ts : List Token) :
    splitAddresses (ss ++ ts) = splitAddresses ss ++ splitAddresses ts := by
  simp [splitAddresses]

theorem splitAddresses_flatMap {α : Type} (f : α → List Token) (xs : List α) :
    splitAddresses (xs.flatMap f) = xs.flatMap fun x => splitAddresses (f x) := by
  simp [splitAddresses, List.flatMap_assoc]

theorem operandKind?_of_item? {t : Token} {item : Item} (h : t.item? = some item)
    (k : OperandKind) : k.accepts t.kind = true ↔ item.operandKind? = some k := by
  simp only [Token.item?] at h
  cases hk : t.kind with
  | instruction =>
    simp only [hk, Option.map_eq_some_iff] at h
    obtain ⟨op, -, rfl⟩ := h
    cases k <;> simp [OperandKind.accepts, Item.operandKind?]
  | addressByte side =>
    simp only [hk] at h
    cases h
    cases k <;> simp [OperandKind.accepts, Item.operandKind?]
  | label | byteLiteral =>
    simp only [hk] at h
    cases h
    cases k <;> simp [OperandKind.accepts, Item.operandKind?]
  | directive =>
    simp only [hk, Item.skip?] at h
    split at h
    · split at h
      · obtain ⟨n, -, rfl⟩ := Option.map_eq_some_iff.1 h
        cases k <;> simp [OperandKind.accepts, Item.operandKind?]
      · cases h
    · cases h
  | address | invalid => simp [hk] at h

theorem forall₂_accepts_iff {ts : List Token} {p : Program} (h : ts.mapM Token.item? = some p)
    (kinds : List OperandKind) :
    List.Forall₂ (fun k o => OperandKind.accepts k o.kind = true) kinds ts ↔
      p.map Item.operandKind? = kinds.map some := by
  induction ts generalizing p kinds with
  | nil =>
    cases h
    cases kinds <;> simp
  | cons t ts ih =>
    simp only [List.mapM_cons, bind, Option.bind_eq_some_iff, pure, Option.some.injEq] at h
    obtain ⟨item, hi, q, hq, rfl⟩ := h
    cases kinds with
    | nil => simp
    | cons k kinds => simp [ih hq, operandKind?_of_item? hi]

theorem isMnemonic_mnemonic (op : Opcode) : Pattern.isMnemonic op.mnemonic.toList = true := by
  cases op <;> decide

theorem isMnemonic_of_ofMnemonic? {t : Text} {op : Opcode} (h : Opcode.ofMnemonic? t = some op) :
    Pattern.isMnemonic t = true := by
  rw [← Opcode.mnemonic_of_ofMnemonic? h]
  exact isMnemonic_mnemonic op

theorem ofPiece?_of_isMnemonic {t : Text} (h : Pattern.isMnemonic t = true) :
    Item.ofPiece? t = none := by
  have hc := Pattern.classify_of_isMnemonic h
  rcases pieceForm t with ⟨_, hk, hi⟩ | ⟨name, _, rfl, hk, hi⟩ | ⟨side, name, _, rfl, hk, hi⟩ |
    ⟨name, _, rfl, hk, hi⟩ | ⟨_, hk, hi⟩ | ⟨_, hk, hi⟩
  · exact hi
  · simp [hc] at hk
  · simp [hc] at hk
  · simp [hc] at hk
  · simp [hc] at hk
  · exact hi

theorem ofPieces?_cons {t : Text} {ts : List Text} {r : Program} :
    Item.ofPieces? (t :: ts) = some r ↔
      ∃ p q, Item.ofPiece? t = some p ∧ Item.ofPieces? ts = some q ∧ r = p ++ q := by
  simp only [Item.ofPieces?, List.mapM_cons, bind, pure, Option.map_eq_some_iff,
    Option.bind_eq_some_iff, Option.some.injEq]
  constructor
  · rintro ⟨_, ⟨p, hp, ps, hps, rfl⟩, rfl⟩
    exact ⟨p, ps.flatten, hp, ⟨ps, hps, rfl⟩, rfl⟩
  · rintro ⟨p, _, hp, ⟨ps, hps, rfl⟩, rfl⟩
    exact ⟨p :: ps, ⟨p, hp, ps, hps, rfl⟩, rfl⟩

def pieceTokens (line : Nat) (pieces : List Text) : List Token :=
  splitAddresses (pieces.map (.ofPiece line))

theorem pieceTokens_cons (line : Nat) (t : Text) (ts : List Text) :
    pieceTokens line (t :: ts) = splitAddresses [.ofPiece line t] ++ pieceTokens line ts := by
  rw [pieceTokens, List.map_cons, ← List.singleton_append, splitAddresses_append]
  rfl

/-- Pieces without a mnemonic among them. -/
theorem says_pieceTokens_iff (line : Nat) {pieces : List Text} {p : Program} :
    Says (pieceTokens line pieces) p ∧ (∀ t ∈ pieceTokens line pieces, t.kind ≠ .instruction) ↔
      Item.ofPieces? pieces = some p := by
  induction pieces generalizing p with
  | nil => simp [pieceTokens, splitAddresses, Says, Item.ofPieces?]
  | cons t ts ih =>
    rw [pieceTokens_cons, ofPieces?_cons]
    constructor
    · rintro ⟨hs, hk⟩
      obtain ⟨q, r, hq, hr, rfl⟩ := hs.of_append
      have hts := ih.1 ⟨hr, fun s hs => hk s (List.mem_append_right _ hs)⟩
      cases ht : Item.ofPiece? t with
      | none =>
        obtain ⟨he, hi | hi⟩ := token_of_ofPiece?_eq_none ht line
        · exact absurd hi (hk _ (by simp [he]))
        · have hc := hq.1 (.ofPiece line t) (by simp [he])
          rw [hi] at hc
          cases hc
      | some items =>
        obtain ⟨-, hm, -⟩ := tokens_of_ofPiece? ht line
        have : q = items := Option.some.inj (hq.2.symm.trans hm)
        exact ⟨items, r, rfl, hts, by rw [this]⟩
    · rintro ⟨q, r, hq, hr, rfl⟩
      obtain ⟨hc, hm, hk⟩ := tokens_of_ofPiece? hq line
      obtain ⟨hs, hks⟩ := ih.2 hr
      refine ⟨Says.append ⟨hc, hm⟩ hs, fun s hs => ?_⟩
      rcases List.mem_append.1 hs with hs | hs
      · exact hk s hs
      · exact hks s hs

theorem instruction?_cons {m : Text} {ps : List Text} {r : Program} :
    Item.instruction? (m :: ps) = some r ↔
      ∃ op q, Opcode.ofMnemonic? m = some op ∧ Item.ofPieces? ps = some q ∧
        q.map Item.operandKind? = op.operands.map some ∧ r = .instruction op :: q := by
  simp only [Item.instruction?, bind, Option.bind_eq_some_iff, Option.ite_none_right_eq_some,
    Option.some.injEq]
  constructor
  · rintro ⟨op, ho, q, hq, hk, rfl⟩
    exact ⟨op, q, ho, hq, hk, rfl⟩
  · rintro ⟨op, q, ho, hq, hk, rfl⟩
    exact ⟨op, ho, q, hq, hk, rfl⟩

theorem instruction?_eq_none_of_ofPieces? {ps : List Text} {p : Program}
    (h : Item.ofPieces? ps = some p) : Item.instruction? ps = none := by
  cases ps with
  | nil => rfl
  | cons m ps =>
    refine Option.eq_none_iff_forall_ne_some.2 fun r hr => ?_
    obtain ⟨op, -, ho, -⟩ := instruction?_cons.1 hr
    obtain ⟨q, -, hq, -⟩ := ofPieces?_cons.1 h
    rw [ofPiece?_of_isMnemonic (isMnemonic_of_ofMnemonic? ho)] at hq
    cases hq

theorem item?_annotate (t : Token) (es : List Event) : (t.annotate es).item? = t.item? := rfl

theorem mapM_item?_of_checked {ss ts : List Token} (h : List.Forall₂ Checked ss ts) :
    ts.mapM Token.item? = ss.mapM Token.item? := by
  induction h with
  | nil => rfl
  | cons hc _ ih =>
    obtain ⟨es, rfl, -⟩ := hc.annotated
    rw [List.mapM_cons, List.mapM_cons, item?_annotate, ih]

theorem says_checkLine_iff {ts : List Token} {p : Program} :
    Says (checkLine true ts) p ↔
      Says ts p ∧ ((∀ t ∈ ts, t.kind ≠ .instruction) ∨
        ∃ op t operands, ts = t :: operands ∧ Takes op t operands) := by
  rw [Says, clean_checkLine_iff, mapM_item?_of_checked (forall₂_checkLine true ts), and_right_comm]
  rfl

theorem eq_cons_of_pieceTokens {line : Nat} {pieces : List Text} {op : Opcode} {t : Token}
    {operands : List Token} (h : pieceTokens line pieces = t :: operands) (ht : Takes op t operands) :
    ∃ m ps, pieces = m :: ps ∧ Opcode.ofMnemonic? m = some op ∧ operands = pieceTokens line ps := by
  cases pieces with
  | nil => simp [pieceTokens, splitAddresses] at h
  | cons m ps =>
    rw [pieceTokens_cons] at h
    cases hm : Item.ofPiece? m with
    | none =>
      rw [(token_of_ofPiece?_eq_none hm line).1] at h
      obtain ⟨rfl, rfl⟩ := List.cons.inj h
      exact ⟨m, ps, rfl, by simpa using ht.known, rfl⟩
    | some items =>
      obtain ⟨-, -, hk⟩ := tokens_of_ofPiece? hm line
      cases hs : splitAddresses [.ofPiece line m] with
      | nil =>
        rw [splitAddresses_singleton] at hs
        split at hs <;> cases hs
      | cons u us =>
        rw [hs] at h hk
        obtain ⟨rfl, -⟩ := List.cons.inj h
        exact absurd ht.kind (hk u (by simp))

theorem pieceTokens_of_mnemonic (line : Nat) {m : Text} {op : Opcode}
    (h : Opcode.ofMnemonic? m = some op) (ps : List Text) :
    pieceTokens line (m :: ps) = .ofPiece line m :: pieceTokens line ps ∧
      (Token.ofPiece line m).kind = .instruction ∧ (Token.ofPiece line m).isErrored = false := by
  have hm := isMnemonic_of_ofMnemonic? h
  rw [pieceTokens_cons, (token_of_ofPiece?_eq_none (ofPiece?_of_isMnemonic hm) line).1]
  simp [Pattern.classify_of_isMnemonic hm]

theorem item?_of_takes {op : Opcode} {t : Token} {operands : List Token} (h : Takes op t operands) :
    t.item? = some (.instruction op) := by
  simp [Token.item?, h.kind, h.known]

theorem says_pieces_iff (line : Nat) (pieces : List Text) {p : Program} :
    Says (checkLine true (pieceTokens line pieces)) p ↔
      (Item.instruction? pieces <|> Item.ofPieces? pieces) = some p := by
  rw [says_checkLine_iff]
  constructor
  · rintro ⟨hs, hk | ⟨op, t, operands, he, ht⟩⟩
    · have hp := (says_pieceTokens_iff line).1 ⟨hs, hk⟩
      rw [instruction?_eq_none_of_ofPieces? hp, hp]
      rfl
    · obtain ⟨m, ps, rfl, ho, rfl⟩ := eq_cons_of_pieceTokens he ht
      rw [he] at hs
      obtain ⟨-, item, q, hi, hq, rfl⟩ := Says.cons_iff.1 hs
      have hk := (forall₂_accepts_iff hq.2 op.operands).1 ht.accepts
      have hps := (says_pieceTokens_iff line).1 ⟨hq, not_instruction_of_forall₂ ht.accepts⟩
      have hitem : item = .instruction op := Option.some.inj (hi.symm.trans (item?_of_takes ht))
      rw [hitem, instruction?_cons.2 ⟨op, q, ho, hps, hk, rfl⟩]
      rfl
  · intro h
    cases hins : Item.instruction? pieces with
    | none =>
      rw [hins] at h
      obtain ⟨hs, hk⟩ := (says_pieceTokens_iff line).2 h
      exact ⟨hs, Or.inl hk⟩
    | some r =>
      rw [hins] at h
      obtain rfl : r = p := Option.some.inj h
      cases pieces with
      | nil => cases hins
      | cons m ps =>
        obtain ⟨op, q, ho, hq, hk, rfl⟩ := instruction?_cons.1 hins
        obtain ⟨he, hkind, herr⟩ := pieceTokens_of_mnemonic line ho ps
        obtain ⟨hs, hno⟩ := (says_pieceTokens_iff line).2 hq
        have ht : Takes op (.ofPiece line m) (pieceTokens line ps) :=
          ⟨hkind, by simpa using ho, (forall₂_accepts_iff hs.2 op.operands).2 hk⟩
        rw [he]
        exact ⟨Says.cons_iff.2 ⟨herr, _, q, item?_of_takes ht, hs, rfl⟩,
          Or.inr ⟨op, _, _, rfl, ht⟩⟩

theorem skip?_trim (code : Text) : Item.skip? code.trim = Item.skip? code := by
  rw [Item.skip?, Text.words_trim, Item.skip?]

theorem line_of_mem_tokens {line : Nat} {raw : Text} {t : Token} (h : t ∈ Line.tokens line raw) :
    t.line = line := by
  simp only [Line.tokens] at h
  split at h
  · cases h
  · rw [List.mem_singleton.1 h]
    rfl
  · obtain ⟨piece, -, rfl⟩ := List.mem_map.1 h
    exact Token.line_ofPiece line piece

theorem line_of_mem_splitAddresses {line : Nat} {ts : List Token} (h : ∀ t ∈ ts, t.line = line) :
    ∀ t ∈ splitAddresses ts, t.line = line := by
  intro u hu
  obtain ⟨t, ht, hu⟩ := List.mem_flatMap.1 hu
  split at hu
  · simp only [List.mem_cons, List.not_mem_nil, or_false] at hu
    rcases hu with rfl | rfl <;> rw [Token.line_half, h t ht]
  · rw [List.mem_singleton.1 hu, h t ht]

theorem says_directive_iff (line : Nat) (rest : Text) {p : Program} :
    Says (checkLine true (splitAddresses [.ofDirective line ('#' :: rest)])) p ↔
      (Item.skip? ('#' :: rest)).map ([·]) = some p := by
  have hs : splitAddresses [.ofDirective line ('#' :: rest)] = [.ofDirective line ('#' :: rest)] := by
    simp [splitAddresses_singleton, Token.splits, Token.ofDirective, Token.note, Token.record,
      Token.fresh]
  have hi : (Token.ofDirective line ('#' :: rest)).item? = Item.skip? ('#' :: rest) :=
    skip?_trim _
  have he : (Token.ofDirective line ('#' :: rest)).isErrored = false := by
    simp [Token.ofDirective, Token.isErrored, Token.fresh, Token.note, Token.record, Event.error?]
  have hk : ∀ t ∈ [Token.ofDirective line ('#' :: rest)], t.kind ≠ .instruction := by
    simp [Token.ofDirective, Token.note, Token.record, Token.fresh]
  rw [hs, checkLine_of_no_instruction hk]
  simp only [Says.cons_iff, Says.nil_iff, he, hi, true_and, Option.map_eq_some_iff]
  constructor
  · rintro ⟨item, q, hq, rfl, rfl⟩
    exact ⟨item, hq, rfl⟩
  · rintro ⟨item, hq, rfl⟩
    exact ⟨item, [], hq, rfl, rfl⟩

theorem says_line_iff (line : Nat) (raw : Text) {p : Program} :
    Says (checkLine true (splitAddresses (Line.tokens line raw))) p ↔
      Item.ofLine? raw = some p := by
  simp only [Line.tokens, Item.ofLine?]
  split
  · next hc =>
    rw [hc]
    exact says_pieces_iff line []
  · next rest hc =>
    rw [hc]
    exact says_directive_iff line rest
  · next code h0 hc =>
    split
    · next rest he => exact absurd he (hc rest)
    · exact says_pieces_iff line (Line.code raw).pieces

/-- The tokens of a source text before they are placed. -/
def checked (source : Text) : List Token := checkOperands (splitAddresses (tokenize source))

theorem checked_eq (source : Text) : checked source =
    ((source.splitOn '\n').zipIdx 1).flatMap fun x =>
      checkLine true (splitAddresses (Line.tokens x.2 x.1)) := by
  rw [checked, tokenize, splitAddresses_flatMap]
  refine checkOperands_flatMap _ (fun x => ?_) _ _
  exact line_of_mem_splitAddresses fun t ht => line_of_mem_tokens ht

/-- A source text has a program exactly if its tokens say one, and then it is the same. -/
theorem says_checked_iff (source : Text) {p : Program} :
    Says (checked source) p ↔ Program.ofSource? source = some p := by
  have lines : ∀ (raws : List Text) (n : Nat) (p : Program),
      Says ((raws.zipIdx n).flatMap fun x =>
        checkLine true (splitAddresses (Line.tokens x.2 x.1))) p ↔
      (raws.mapM Item.ofLine?).map List.flatten = some p := by
    intro raws
    induction raws with
    | nil => simp [Says.nil_iff, eq_comm]
    | cons raw raws ih =>
      intro n p
      rw [List.zipIdx_cons, List.flatMap_cons]
      simp only [List.mapM_cons, bind, pure, Option.map_eq_some_iff, Option.bind_eq_some_iff,
        Option.some.injEq]
      constructor
      · intro h
        obtain ⟨q, r, hq, hr, rfl⟩ := h.of_append
        obtain ⟨rs, hrs, rfl⟩ := Option.map_eq_some_iff.1 ((ih _ _).1 hr)
        exact ⟨q :: rs, ⟨q, (says_line_iff n raw).1 hq, rs, hrs, rfl⟩, rfl⟩
      · rintro ⟨_, ⟨q, hq, rs, hrs, rfl⟩, rfl⟩
        exact Says.append ((says_line_iff n raw).2 hq)
          ((ih (n + 1) rs.flatten).2 (Option.map_eq_some_iff.2 ⟨rs, hrs, rfl⟩))
  rw [checked_eq]
  exact lines _ _ _

end Octet
