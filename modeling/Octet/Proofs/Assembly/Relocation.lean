import Octet.Proofs.Assembly.Correctness
import Octet.Proofs.Assembly.Edits
import Octet.Proofs.Assembly.LineNumbers

/-! # Relocation

A text behind a directive that skips to an address is laid out from that address on: its tokens and
labels stand as far from each other as before, and only what refers to a label is encoded otherwise.
Nothing is wrong with it exactly if all of it still has a place below the end of the address space.
-/

namespace Octet

/-- The label is moved by `k` addresses, and by one line. -/
structure Label.Moved (k : Nat) (label label' : Label) : Prop where
  address : label'.address.toNat = label.address.toNat + k
  line : label'.line = label.line + 1

/-- The same names are bound, to labels that are moved. -/
def LabelTable.Moved (k : Nat) (labels labels' : LabelTable) : Prop :=
  ∀ name, Option.Rel (Label.Moved k) (labels.get? name) (labels'.get? name)

namespace LabelTable.Moved

variable {k : Nat} {labels labels' : LabelTable} {name : Text}

theorem get?_eq_none (h : labels.Moved k labels') (hn : labels.get? name = none) :
    labels'.get? name = none := by
  have hrel := h name
  rw [hn] at hrel
  generalize labels'.get? name = found at hrel
  cases hrel
  rfl

theorem exists_label (h : labels.Moved k labels') {label : Label}
    (hl : labels.get? name = some label) :
    ∃ label', labels'.get? name = some label' ∧ label.Moved k label' := by
  have hrel := h name
  rw [hl] at hrel
  generalize labels'.get? name = found at hrel
  cases hrel with
  | some hmoved => exact ⟨_, rfl, hmoved⟩

end LabelTable.Moved

structure Cursor.Moved (k : Nat) (c c' : Cursor) : Prop where
  counter : c'.counter = c.counter + k
  labels : c.labels.Moved k c'.labels

namespace Token

/-- The token stands `k` addresses and one line further on. -/
structure Moved (k : Nat) (t t' : Token) : Prop extends SamePiece t.down t' where
  errored : t'.isErrored = t.isErrored
  address : ∃ a a' : Address, t.address = some a ∧ t'.address = some a' ∧ a'.toNat = a.toNat + k

def Fits (k : Nat) (t : Token) : Prop := ∀ a, t.address = some a → a.toNat + k ≤ 65535

theorem Moved.fits {k : Nat} {t t' : Token} (h : t.Moved k t') : t.Fits k := by
  obtain ⟨a, a', ha, -, hk⟩ := h.address
  intro b hb
  obtain rfl := Option.some.inj (ha.symm.trans hb)
  have := a'.toNat_lt
  omega

theorem target?_of_item? {t : Token} {item : Item} (h : t.item? = some item)
    (hd : t.kind ≠ .directive) : item.target? = none := by
  by_cases hl : t.kind = .label
  · obtain rfl := Option.some.inj (h.symm.trans (item?_of_label hl))
    rfl
  · exact Item.target?_of_takesByte (takesByte_of_item? h hl hd)

end Token

namespace Item

variable {item : Item}

theorem fitsAt_of_target? (h : item.target? = none) {n : Nat} : item.FitsAt n ↔ n ≤ 65535 := by
  cases item with
  | skip target => cases h
  | _ => exact Iff.rfl

theorem next_add (h : item.target? = none) (n k : Nat) : item.next (n + k) = item.next n + k := by
  cases item with
  | skip target => cases h
  | label name => rfl
  | _ => exact Nat.add_right_comm n k 1

end Item

namespace Cursor

open Token

variable {k : Nat} {c c' : Cursor} {t : Token} {item : Item}

theorem Moved.admits_iff (hm : c.Moved k c') (ha : c.Admits item) (hk : item.target? = none) :
    c'.Admits item ↔ c.counter + k ≤ 65535 := by
  rw [Admits, Item.fitsAt_of_target? hk, hm.counter]
  exact and_iff_left fun name hname => hm.labels.get?_eq_none (ha.2 name hname)

/-- A token is placed further on by as much as the cursor stands further on. -/
theorem Moved.place (hm : c.Moved k c') (he : t.isErrored = false) (hi : t.item? = some item)
    (hk : item.target? = none) (ha : c.Admits item) (ha' : c'.Admits item) :
    (∃ u u', (c.place t).1 = some u ∧ (c'.place t.down).1 = some u' ∧ u.Moved k u') ∧
      (c.place t).2.Moved k (c'.place t.down).2 := by
  have ht := place_of_admits he hi ha
  have ht' : c'.Takes t.down item := place_of_admits he hi ha'
  have hle := (Item.fitsAt_of_target? hk).1 ha.1
  have hle' := (hm.admits_iff ha hk).1 ha'
  have haddress : (UInt16.ofNat c'.counter).toNat = (UInt16.ofNat c.counter).toNat + k := by
    simp only [UInt16.toNat_ofNat', hm.counter]
    omega
  refine ⟨?token, ?counter, ?labels⟩
  case token =>
    obtain ⟨u, hu, hat⟩ := ht.stays hk
    obtain ⟨u', hu', hat'⟩ := ht'.stays hk
    have hsame : SamePiece u.down u' := (samePiece_place hu).down.symm.trans (samePiece_place hu')
    have herrored := hat'.clean.trans hat.clean.symm
    exact ⟨u, u', hu, hu', ⟨hsame, herrored, _, _, hat.address, hat'.address, haddress⟩⟩
  case counter => rw [ht.counter, ht'.counter, hm.counter, Item.next_add hk]
  case labels =>
    intro name
    rw [ht.labels, ht'.labels]
    split
    · exact .some ⟨haddress, rfl⟩
    · exact hm.labels name

variable {ts : List Token} {p : Program}

theorem Moved.placeAll (hm : c.Moved k c') (hs : Says ts p) (hd : ∀ t ∈ ts, t.kind ≠ .directive)
    (ha : c.AdmitsAll p) (ha' : c'.AdmitsAll p) :
    List.Forall₂ (Token.Moved k) (c.placeAll ts).1 (c'.placeAll (ts.map down)).1 ∧
      (c.placeAll ts).2.Moved k (c'.placeAll (ts.map down)).2 := by
  induction ts generalizing c c' p with
  | nil => exact ⟨.nil, hm⟩
  | cons t ts ih =>
    obtain ⟨he, item, p, hi, hts, rfl⟩ := Says.cons_iff.1 hs
    obtain ⟨hdt, hdts⟩ := List.forall_mem_cons.1 hd
    have hk := target?_of_item? hi hdt
    obtain ⟨⟨u, u', hu, hu', htoken⟩, hnext⟩ := hm.place he hi hk ha.head ha'.head
    have hrest := ((admitsAll_cons (place_of_admits he hi ha.head)).1 ha).2
    have hrest' := ((admitsAll_cons (place_of_admits (t := t.down) he hi ha'.head)).1 ha').2
    obtain ⟨htokens, hcursor⟩ := ih hnext hts hdts hrest hrest'
    rw [List.map_cons, placeAll_cons, placeAll_cons, hu, hu']
    exact ⟨.cons htoken htokens, hcursor⟩

/-- What has been placed can be placed further on if every address has one there. -/
theorem Moved.admitsAll (hm : c.Moved k c') (hs : Says ts p) (hd : ∀ t ∈ ts, t.kind ≠ .directive)
    (ha : c.AdmitsAll p) (hfits : ∀ u ∈ (c.placeAll ts).1, u.Fits k) : c'.AdmitsAll p := by
  induction ts generalizing c c' p with
  | nil =>
    obtain rfl := Says.nil_iff.1 hs
    exact c'.admitsAll_nil
  | cons t ts ih =>
    obtain ⟨he, item, p, hi, hts, rfl⟩ := Says.cons_iff.1 hs
    obtain ⟨hdt, hdts⟩ := List.forall_mem_cons.1 hd
    have hk := target?_of_item? hi hdt
    have ht := place_of_admits he hi ha.head
    obtain ⟨u, hu, hat⟩ := ht.stays hk
    rw [placeAll_cons, hu, List.forall_mem_append] at hfits
    have hadm' : c'.Admits item := by
      have hfit := hfits.1 u (Option.mem_toList.2 rfl) _ hat.address
      have hle := (Item.fitsAt_of_target? hk).1 ha.head.1
      rw [UInt16.toNat_ofNat', Nat.mod_eq_of_lt (by omega)] at hfit
      exact (hm.admits_iff ha.head hk).2 hfit
    have hnext := (hm.place he hi hk ha.head hadm').2
    have hrest := ((admitsAll_cons ht).1 ha).2
    have ht' : c'.Takes t.down item := place_of_admits he hi hadm'
    exact (admitsAll_cons ht').2 ⟨hadm', ih hnext hts hdts hrest hfits.2⟩

end Cursor

open Token Operands

def skipLine (k : Nat) : Text := '#' :: ("SKIPTO".toList ++ ' ' :: Numeral.decimal k)

/-- The text behind a line that skips to `k`. -/
def startAt (k : Nat) (source : Text) : Text := skipLine k ++ '\n' :: source

theorem not_mem_skipLine {k : Nat} {c : Char} (hname : c ∉ "#SKIPTO ".toList)
    (hdigit : c.isDigit = false) : c ∉ skipLine k := by
  have hline : skipLine k = "#SKIPTO ".toList ++ Numeral.decimal k := by simp [skipLine]
  rw [hline, List.mem_append]
  rintro (hmem | hmem)
  · exact hname hmem
  · rw [Numeral.isDigit_of_mem_decimal c hmem] at hdigit
    cases hdigit

theorem code_skipLine (k : Nat) : Line.code (skipLine k) = skipLine k := by
  have hcomment : '-' ∉ skipLine k := not_mem_skipLine (by decide) (by decide)
  have hreturn : '\r' ∉ skipLine k := not_mem_skipLine (by decide) (by decide)
  have hbody := Line.body_of_not_mem hcomment
  rw [← hbody] at hreturn
  rw [Line.code_of_body hreturn, hbody]
  rfl

theorem splitOn_skipLine (k : Nat) : (skipLine k).splitOn '\n' = [skipLine k] := by
  have hnewline : '\n' ∉ skipLine k := not_mem_skipLine (by decide) (by decide)
  exact List.splitOn_eq_singleton hnewline

theorem checked_skipLine (k : Nat) : checked (skipLine k) = [ofDirective 1 (skipLine k)] := by
  have htokens : Line.tokens 1 (skipLine k) = [ofDirective 1 (skipLine k)] := by
    rw [Line.tokens_eq_ofCode, code_skipLine]
    rfl
  rw [checked_eq, splitOn_skipLine]
  simp only [List.zipIdx_cons, List.zipIdx_nil, List.flatMap_cons, List.flatMap_nil, htokens,
    List.append_nil]
  have hkind : ∀ t ∈ [ofDirective 1 (skipLine k)], t.kind ≠ .instruction := by
    simp [ofDirective, fresh, note, record]
  exact checkLine_of_no_instruction hkind true

theorem checked_startAt (k : Nat) (source : Text) : checked (startAt k source) =
    ofDirective 1 (skipLine k) :: (checked source).map down := by
  rw [startAt, checked_append, checked_skipLine, lineCount, splitOn_skipLine,
    checked_eq_checkedFrom source, ← checkedFrom_succ]
  rfl

theorem words_skipLine (k : Nat) :
    (skipLine k).words = ["#SKIPTO".toList, Numeral.decimal k] := by
  have hnumber : (Numeral.decimal k).words = [Numeral.decimal k] :=
    Text.words_of_not_blank Nat.toDigits_ne_nil fun c hc =>
      Text.isBlank_of_isDigit (Numeral.isDigit_of_mem_decimal c hc)
  have hname : Text.words ('#' :: "SKIPTO".toList) = ["#SKIPTO".toList] := by decide
  have hsplit := Text.words_append_cons (c := ' ') rfl ('#' :: "SKIPTO".toList) (Numeral.decimal k)
  rw [hname, hnumber] at hsplit
  exact hsplit

theorem item?_skipLine (k : Nat) : (ofDirective 1 (skipLine k)).item? = some (.skip k) := by
  have hitem : (ofDirective 1 (skipLine k)).item? = Item.skip? (skipLine k).trim :=
    item?_of_directive rfl
  rw [hitem, skip?_trim, Directive.skip?_eq_some_iff]
  exact ⟨_, k, words_skipLine k, Numeral.ofDecimal?_decimal k, rfl⟩

theorem place_skipLine {k : Nat} (hk : k ≤ 65535) :
    Cursor.start.Takes (ofDirective 1 (skipLine k)) (.skip k) :=
  Cursor.place_of_admits rfl (item?_skipLine k)
    ⟨⟨Nat.zero_le k, hk⟩, fun _ hname => by cases hname⟩

theorem moved_skipLine {k : Nat} (hk : k ≤ 65535) :
    Cursor.start.Moved k (Cursor.start.place (ofDirective 1 (skipLine k))).2 := by
  refine ⟨?_, fun name => ?_⟩
  · rw [(place_skipLine hk).counter]
    exact (Nat.zero_add k).symm
  · rw [(place_skipLine hk).labels, if_neg (by simp [Item.defined?])]
    exact .none

theorem laidOut_startAt {k : Nat} (hk : k ≤ 65535) (source : Text) : laidOut (startAt k source) =
    (Cursor.start.place (ofDirective 1 (skipLine k))).2.placeAll ((checked source).map down) := by
  have hgone := (place_skipLine hk).leaves (by simp [Item.target?])
  rw [laidOut, checked_startAt, Cursor.placeAll_cons, hgone]
  rfl

theorem kind_ne_directive_of_mem_checked {source : Text}
    (hs : ∀ raw ∈ source.splitOn '\n', (Line.code raw).head? ≠ some '#') :
    ∀ t ∈ checked source, t.kind ≠ .directive := by
  intro t ht
  rw [checked_eq] at ht
  obtain ⟨x, hx, ht⟩ := List.mem_flatMap.1 ht
  obtain ⟨s, hmem, hchecked⟩ := exists_of_mem_right (forall₂_checkLine true _) ht
  rw [hchecked.annotated.samePiece.kind]
  have hcode := hs x.1 (List.fst_mem_of_mem_zipIdx hx)
  exact (part_of_mem_splitAddresses hmem).kind_ne_directive hcode

/-- The token `t'` of a relocated text is what has become of the token `t` of a text with the
labels. Only half of an address is another byte than before. -/
structure Relocated (k : Nat) (labels : LabelTable) (t t' : Token) : Prop extends t.Moved k t' where
  byte : (∀ side, t.kind ≠ .addressByte side) → t'.byte = t.byte
  half : ∀ side, t.kind = .addressByte side → ∃ name label, ∃ a' : Address,
    t.referencedLabel? = some name ∧ labels.get? name = some label ∧
    t.byte = some (side.of label.address) ∧ t'.byte = some (side.of a') ∧
    a'.toNat = label.address.toNat + k

namespace Encoding

variable {k : Nat} {labels labels' : LabelTable} {t t' : Token}

theorem byte_token {b : Option Byte} (he : t.isErrored = false) (hb : byte? labels t = .ok b)
    (hn : t.byte = none) : (token labels t).byte = b := by
  rw [token, he, hb]
  cases b with
  | none => exact hn
  | some b => rfl

theorem referencedLabel?_of_samePiece (h : SamePiece t t') :
    t'.referencedLabel? = t.referencedLabel? := by
  simp only [referencedLabel?, h.kind, h.text]

theorem byte?_of_samePiece (h : SamePiece t t') : byte? labels t' = byte? labels t := by
  simp only [byte?, referencedLabel?_of_samePiece h, h.kind, h.text]

theorem byte?_of_moved (hm : t.Moved k t') (hk : ∀ side, t.kind ≠ .addressByte side) :
    byte? labels' t' = byte? labels t := by
  rw [byte?_of_samePiece hm.toSamePiece]
  exact byte?_of_not_addressByte hk labels'

/-- Half of the address of a label is encoded as that half of the address further on. -/
theorem exists_byte?_of_moved {side : Half} {b : Option Byte} (hm : t.Moved k t')
    (hl : labels.Moved k labels') (ht : t.Lexed) (hk : t.kind = .addressByte side)
    (hb : byte? labels t = .ok b) : ∃ name label label', t.referencedLabel? = some name ∧
      labels.get? name = some label ∧ label.Moved k label' ∧ b = some (side.of label.address) ∧
      byte? labels' t' = .ok (some (side.of label'.address)) := by
  obtain ⟨name, htext⟩ := ht.half side hk
  have hname := referencedLabel?_of_text hk htext
  rw [byte?_of_addressByte hk hname] at hb
  cases hg : labels.get? name with
  | none =>
    rw [hg] at hb
    cases hb
  | some label =>
    rw [hg] at hb
    cases hb
    obtain ⟨label', hg', hmoved⟩ := hl.exists_label hg
    refine ⟨name, label, label', hname, hg, hmoved, rfl, ?_⟩
    have hk' : t.down.kind = .addressByte side := hk
    rw [byte?_of_samePiece hm.toSamePiece, byte?_of_addressByte hk' hname, hg']

theorem moved_token (hm : t.Moved k t') (hc : (token labels t).isErrored = false)
    (hc' : (token labels' t').isErrored = false) :
    (token labels t).Moved k (token labels' t') := by
  have hsame := (samePiece_token labels t).down.symm.trans hm.toSamePiece
  refine ⟨hsame.trans (samePiece_token labels' t'), hc'.trans hc.symm, ?_⟩
  rw [address_token, address_token]
  exact hm.address

theorem relocated_token (hm : t.Moved k t') (hl : labels.Moved k labels') (ht : t.Placed labels)
    (ht' : t'.Placed labels') (hc : (token labels t).isErrored = false) :
    Relocated k labels (token labels t) (token labels' t') := by
  obtain ⟨he, b, hb⟩ := isErrored_token_eq_false_iff.1 hc
  have he' : t'.isErrored = false := hm.errored.trans he
  have hkind := (samePiece_token labels t).kind
  by_cases hk : ∃ side, t.kind = .addressByte side
  · obtain ⟨side, hk⟩ := hk
    obtain ⟨name, label, label', hname, hg, hmoved, rfl, hb'⟩ :=
      exists_byte?_of_moved hm hl ht.lexed hk hb
    have hc' := isErrored_token_eq_false_iff.2 ⟨he', _, hb'⟩
    refine ⟨moved_token hm hc hc', fun hnot => ?_, fun side' hside => ?_⟩
    · exact absurd (hkind.trans hk) (hnot side)
    · obtain rfl : side' = side := by
        rw [hkind, hk] at hside
        exact (TokenKind.addressByte.inj hside).symm
      refine ⟨name, label, label'.address, ?_, hg, ?_, ?_, hmoved.address⟩
      · rw [referencedLabel?_of_samePiece (samePiece_token labels t), hname]
      · exact byte_token he hb ht.lexed.byte
      · exact byte_token he' hb' ht'.lexed.byte
  · have hk : ∀ side, t.kind ≠ .addressByte side := fun side h => hk ⟨side, h⟩
    have hb' : byte? labels' t' = .ok b := (byte?_of_moved hm hk).trans hb
    have hc' := isErrored_token_eq_false_iff.2 ⟨he', b, hb'⟩
    refine ⟨moved_token hm hc hc', fun _ => ?_, fun side hside => ?_⟩
    · rw [byte_token he hb ht.lexed.byte, byte_token he' hb' ht'.lexed.byte]
    · exact absurd (hkind.symm.trans hside) (hk side)

end Encoding

theorem Says.unique {ts : List Token} {p q : Program} (hp : Says ts p) (hq : Says ts q) : p = q :=
  Option.some.inj (hp.2.symm.trans hq.2)

section

variable {source : Text} {k : Nat} {p : Program}

/-- What the text says is said behind the directive as well, if nothing is wrong there. -/
theorem admitsAll_of_startAt (hk : k ≤ 65535) (hp : Says (checked source) p)
    (hc : (compile (startAt k source)).hasErrors = false) :
    (Cursor.start.place (ofDirective 1 (skipLine k))).2.AdmitsAll p := by
  obtain ⟨q, hq, ha, -⟩ := clean_tokens_iff.1 ((Compilation.hasErrors_eq_false_iff _).1 hc)
  rw [checked_startAt] at hq
  obtain ⟨-, item, q, hi, hrest, rfl⟩ := Says.cons_iff.1 hq
  obtain rfl : item = .skip k := Option.some.inj (hi.symm.trans (item?_skipLine k))
  obtain rfl : q = p := hrest.of_down.unique hp
  exact ((Cursor.admitsAll_cons (place_skipLine hk)).1 ha).2

theorem relocated_of_admitsAll (hk : k ≤ 65535) (hd : ∀ t ∈ checked source, t.kind ≠ .directive)
    (hc : Clean (compile source).tokens) (hp : Says (checked source) p)
    (ha : Cursor.start.AdmitsAll p)
    (ha' : (Cursor.start.place (ofDirective 1 (skipLine k))).2.AdmitsAll p) :
    List.Forall₂ (Relocated k (compile source).labels) (compile source).tokens
        (compile (startAt k source)).tokens ∧
      (compile source).labels.Moved k (compile (startAt k source)).labels := by
  obtain ⟨htokens, hcursor⟩ := (moved_skipLine hk).placeAll hp hd ha ha'
  rw [← laidOut_startAt hk source] at htokens hcursor
  have hlabels : (compile source).labels.Moved k (compile (startAt k source)).labels := by
    rw [labels_compile, labels_compile]
    exact hcursor.labels
  refine ⟨?_, hlabels⟩
  rw [tokens_compile, tokens_compile]
  refine List.forall₂_map_left_iff.2 (List.forall₂_map_right_iff.2 ?_)
  refine forall₂_imp_of_mem htokens fun t ht t' ht' hm => ?_
  have hclean := hc _ (mem_tokens_iff.2 ⟨t, ht, rfl⟩)
  exact Encoding.relocated_token hm hlabels (placed_laidOut ht) (placed_laidOut ht') hclean

end

/-- A clean text without directives can be laid out from `k` on exactly if `k` addresses behind each
of its tokens and labels there still is one, and then all of it is relocated. -/
theorem compile_startAt {source : Text} {k : Nat} (hk : k ≤ 65535)
    (hs : ∀ raw ∈ source.splitOn '\n', (Line.code raw).head? ≠ some '#')
    (hc : (compile source).hasErrors = false) :
    ((compile (startAt k source)).hasErrors = false ↔
      (∀ t ∈ (compile source).tokens, t.Fits k) ∧
        ∀ name label, (compile source).labels.get? name = some label →
          label.address.toNat + k ≤ 65535) ∧
    ((compile (startAt k source)).hasErrors = false →
      List.Forall₂ (Relocated k (compile source).labels) (compile source).tokens
          (compile (startAt k source)).tokens ∧
        (compile source).labels.Moved k (compile (startAt k source)).labels) := by
  have hclean := (Compilation.hasErrors_eq_false_iff _).1 hc
  obtain ⟨p, hp, ha, -⟩ := clean_tokens_iff.1 hclean
  have hd := kind_ne_directive_of_mem_checked hs
  refine ⟨⟨fun hc' => ?fits, fun hfits => ?clean⟩, fun hc' => ?relocated⟩
  case fits =>
    obtain ⟨htokens, hlabels⟩ :=
      relocated_of_admitsAll hk hd hclean hp ha (admitsAll_of_startAt hk hp hc')
    refine ⟨fun t ht => ?_, fun name label hl => ?_⟩
    · obtain ⟨t', -, hr⟩ := exists_of_mem_left htokens ht
      exact hr.toMoved.fits
    · obtain ⟨label', -, hmoved⟩ := hlabels.exists_label hl
      have hlt := label'.address.toNat_lt
      rw [hmoved.address] at hlt
      omega
  case clean =>
    have ha' := (moved_skipLine hk).admitsAll hp hd ha fun t ht a haddress => by
      refine hfits.1 _ (mem_tokens_iff.2 ⟨t, ht, rfl⟩) a ?_
      rw [Encoding.address_token, haddress]
    obtain ⟨htokens, -⟩ := relocated_of_admitsAll hk hd hclean hp ha ha'
    refine (Compilation.hasErrors_eq_false_iff _).2 fun t' ht' => ?_
    obtain ⟨t, ht, hr⟩ := exists_of_mem_right htokens ht'
    rw [hr.errored, hclean t ht]
  case relocated =>
    exact relocated_of_admitsAll hk hd hclean hp ha (admitsAll_of_startAt hk hp hc')

/-- Two references, one to a label that follows, the other with a carry into its high half. -/
theorem compile_startAt_carry :
    let source := "ADR @END\nLOOP:\nADR @LOOP\nEND:".toList
    (∀ raw ∈ source.splitOn '\n', (Line.code raw).head? ≠ some '#') ∧
      (compile source).hasErrors = false ∧ (compile (startAt 253 source)).hasErrors = false ∧
      List.Forall₂ (Relocated 253 (compile source).labels) (compile source).tokens
        (compile (startAt 253 source)).tokens ∧
      (compile source).labels.Moved 253 (compile (startAt 253 source)).labels := by
  intro source
  have hs : ∀ raw ∈ source.splitOn '\n', (Line.code raw).head? ≠ some '#' := by decide +kernel
  have hc : (compile source).hasErrors = false := by decide +kernel
  have hc' : (compile (startAt 253 source)).hasErrors = false := by decide +kernel
  exact ⟨hs, hc, hc', (compile_startAt (by decide) hs hc).2 hc'⟩

/-- The label behind the last byte is at 65535 at most. -/
example :
    (compile (startAt 65529 "ADR @END\nLOOP:\nADR @LOOP\nEND:".toList)).hasErrors = false ∧
      (compile (startAt 65530 "ADR @END\nLOOP:\nADR @LOOP\nEND:".toList)).hasErrors = true := by
  decide +kernel

end Octet
