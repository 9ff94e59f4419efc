import Octet.Proofs.Assembly.InstructionLine
import Octet.Proofs.Machine.Instruction

/-! # Assembled instructions in the machine

A source text without errors leaves in the memory of a standard machine exactly its bytes. From the
address of an instruction one clock carries out that instruction with the bytes of its operands.
-/

namespace Octet

open Token Operands

variable {source : Text} {image : Image}

theorem byte_of_mem_tokens {t : Token} (ht : t ∈ (compile source).tokens) (he : t.isErrored = false)
    (hk : t.kind ≠ .label) :
    ∃ b, t.byte = some b ∧ Encoding.byte? (compile source).labels t = .ok (some b) := by
  obtain ⟨t', ht', rfl⟩ := mem_tokens_iff.1 ht
  have hkind := (Encoding.samePiece_token (compile source).labels t').kind
  rcases Encoding.coding (placed_laidOut ht') with ⟨he', h⟩ | ⟨_, hk', _, _⟩ | ⟨b, _, _, hb, h⟩ |
    ⟨e, _, _, _, h⟩
  · rw [h, he'] at he
    cases he
  · exact absurd (hkind.trans hk') hk
  · rw [h]
    exact ⟨b, rfl, hb⟩
  · rw [h, isErrored_error] at he
    cases he

theorem lexed_of_mem_tokens {t : Token} (ht : t ∈ (compile source).tokens) :
    (t.kind = .byteLiteral → Pattern.isByteLiteral t.text = true) ∧
      ∀ side, t.kind = .addressByte side → ∃ name, t.text = '@' :: (name ++ side.suffix) := by
  obtain ⟨t', ht', rfl⟩ := mem_tokens_iff.1 ht
  have hlexed := (placed_laidOut ht').lexed
  obtain ⟨-, hkind, htext⟩ := Encoding.samePiece_token (compile source).labels t'
  rw [hkind, htext]
  exact ⟨hlexed.literal, hlexed.half⟩

theorem byte_of_instruction {t : Token} {op : Opcode} {b : Byte} (hk : t.kind = .instruction)
    (hop : Opcode.ofMnemonic? t.text = some op) {labels : LabelTable}
    (hb : Encoding.byte? labels t = .ok (some b)) : b = op.id := by
  simp only [Encoding.byte?, hk, hop] at hb
  cases hb
  rfl

theorem value?_of_literal {t : Token} (ht : t ∈ (compile source).tokens) {b : Byte}
    (hk : t.kind = .byteLiteral) {labels : LabelTable}
    (hb : Encoding.byte? labels t = .ok (some b)) : ByteLiteral.value? t.text = some b.toNat := by
  have hparse : ByteLiteral.parse t.text = .ok b := by
    cases hp : ByteLiteral.parse t.text with
    | error e => simp [Encoding.byte?, hk, hp, Except.map] at hb
    | ok v => simpa [Encoding.byte?, hk, hp, Except.map] using hb
  obtain ⟨n, hv, hn, rfl⟩ :=
    (ByteLiteral.parse_eq_ok_iff_value? ((lexed_of_mem_tokens ht).1 hk)).1 hparse
  have hbyte : (UInt8.ofNat n).toNat = n := by
    rw [UInt8.toNat_ofNat']
    omega
  rw [hv, hbyte]

theorem Half.suffix_inj {side side' : Half} {s t : Text}
    (h : s ++ side.suffix = t ++ side'.suffix) : side = side' := by
  have hsuffix := List.append_inj_right' h (by cases side <;> cases side' <;> rfl)
  cases side <;> cases side' <;> first | rfl | cases hsuffix

theorem byte_of_half {t : Token} (ht : t ∈ (compile source).tokens) {b : Byte} {side side' : Half}
    {name : Text} (hk : t.kind = .addressByte side) (htext : t.text = '@' :: (name ++ side'.suffix))
    {labels : LabelTable} (hb : Encoding.byte? labels t = .ok (some b)) :
    ∃ label, labels.get? name = some label ∧ b = side'.of label.address := by
  obtain ⟨name', htext'⟩ := (lexed_of_mem_tokens ht).2 side hk
  obtain rfl : side = side' := by
    rw [htext, List.cons.injEq] at htext'
    exact (Half.suffix_inj htext'.2).symm
  have hname := referencedLabel?_of_text hk htext
  simp only [Encoding.byte?, hk, hname, Option.getD_some] at hb
  split at hb
  · next label hl =>
    cases hb
    exact ⟨label, hl, rfl⟩
  · cases hb

/-- What a token exports is in the image. -/
theorem mem_image {t : Token} (h : (compile source).image = .ok image)
    (ht : t ∈ (compile source).tokens) (hk : t.kind.takesByte = true) {a : Address} {b : Byte}
    (ha : t.address = some a) (hb : t.byte = some b) : ⟨a, b⟩ ∈ image := by
  rw [Compilation.image_of_clean (Compilation.clean_of_image h)] at h
  obtain ⟨e, he, hentry⟩ :=
    exists_of_mem_left (mapM_eq_ok_iff.1 h) (List.mem_filter.2 ⟨ht, hk⟩)
  simp only [Token.entry, ha, hb] at hentry
  cases hentry
  exact he

theorem exists_bytes {ts : List Token} (h : ∀ t ∈ ts, ∃ b, t.byte = some b) :
    ∃ bytes : List Byte, ts.map (·.byte) = bytes.map some := by
  induction ts with
  | nil => exact ⟨[], rfl⟩
  | cons t ts ih =>
    obtain ⟨⟨b, hb⟩, hts⟩ := List.forall_mem_cons.1 h
    obtain ⟨bytes, hbytes⟩ := ih hts
    refine ⟨b :: bytes, ?_⟩
    rw [List.map_cons, List.map_cons, hb, hbytes]

/-- The bytes of tokens that stand one behind the other stand so in the memory. -/
theorem holds_of_addresses {mem : Memory} {ts : List Token} {bytes : List Byte} {n : Nat}
    (hb : ts.map (·.byte) = bytes.map some) (ha : ts.map (·.address) = addressesFrom n ts.length)
    (hm : ∀ t ∈ ts, ∀ a b, t.address = some a → t.byte = some b → mem.get a = b) :
    mem.Holds (.ofNat n) bytes := by
  induction ts generalizing bytes n with
  | nil =>
    obtain rfl : bytes = [] := by simpa using hb.symm
    trivial
  | cons t ts ih =>
    cases bytes with
    | nil => cases hb
    | cons b bytes =>
      simp only [List.map_cons, List.cons.injEq] at hb
      simp only [List.map_cons, addressesFrom, List.length_cons, List.range'_succ,
        List.cons.injEq] at ha
      obtain ⟨hhead, htail⟩ := List.forall_mem_cons.1 hm
      refine ⟨hhead _ _ ha.1 hb.1, ?_⟩
      have hnext : UInt16.ofNat n + 1 = UInt16.ofNat (n + 1) := (UInt16.ofNat_add n 1).symm
      rw [hnext]
      exact ih hb.2 ha.2 htail

section

variable {t : Token} {op : Opcode} {operands : List Token} {bytes : List Byte}

theorem literal_operand (h : (compile source).image = .ok image) (htakes : Takes op t operands)
    (hop : op.operands = [.byteLiteral]) (hmem : ∀ o ∈ operands, o ∈ (compile source).tokens)
    (hb : operands.map (·.byte) = bytes.map some) :
    operands.map (fun o => ByteLiteral.value? o.text) = [some (bytes.getD 0 0).toNat] := by
  have haccepts := htakes.accepts
  rw [hop] at haccepts
  obtain ⟨o, rest, hk, hrest, rfl⟩ := List.forall₂_cons_left_iff.1 haccepts
  obtain rfl := List.forall₂_nil_left_iff.1 hrest
  have ho := hmem o (List.mem_singleton_self o)
  have hkind : o.kind = .byteLiteral := by
    cases hk' : o.kind <;> simp [hk', OperandKind.accepts] at hk ⊢
  obtain ⟨b, hbyte, hcode⟩ :=
    byte_of_mem_tokens ho (clean_tokens_of_image h o ho) (by simp [hkind])
  obtain rfl : [b] = bytes := by
    apply List.map_injective_iff.2 fun _ _ => Option.some.inj
    rw [← hb, List.map_singleton, List.map_singleton, hbyte]
  rw [List.map_singleton, value?_of_literal ho hkind hcode]
  rfl

theorem address_operands (h : (compile source).image = .ok image) (htakes : Takes .adr t operands)
    (hmem : ∀ o ∈ operands, o ∈ (compile source).tokens)
    (hb : operands.map (·.byte) = bytes.map some) {name : Text}
    (htext : operands.map (·.text) =
      ['@' :: (name ++ Half.high.suffix), '@' :: (name ++ Half.low.suffix)]) :
    ∃ label, (compile source).labels.get? name = some label ∧
      joinBytes (bytes.getD 0 0) (bytes.getD 1 0) = label.address := by
  have hhalf : ∀ o ∈ operands, ∀ side : Half, o.text = '@' :: (name ++ side.suffix) →
      ∃ label, (compile source).labels.get? name = some label ∧
        o.byte = some (side.of label.address) := by
    intro o ho side ht
    obtain ⟨k, hk, haccepts⟩ := exists_of_mem_right htakes.accepts ho
    have hkind : ∃ side', o.kind = .addressByte side' := by
      obtain rfl : k = .addressByte := by simpa [Opcode.operands] using hk
      cases hk' : o.kind <;> simp [hk', OperandKind.accepts] at haccepts ⊢
    obtain ⟨side', hkind⟩ := hkind
    obtain ⟨b, hbyte, hcode⟩ := byte_of_mem_tokens (hmem o ho)
      (clean_tokens_of_image h o (hmem o ho)) (by simp [hkind])
    obtain ⟨label, hl, rfl⟩ := byte_of_half (hmem o ho) hkind ht hcode
    exact ⟨label, hl, hbyte⟩
  obtain ⟨high, low, rfl⟩ : ∃ high low, operands = [high, low] :=
    List.length_eq_two.1 (htakes.accepts.length_eq.symm)
  simp only [List.map_cons, List.map_nil, List.cons.injEq, and_true] at htext
  obtain ⟨label, hl, hhigh⟩ := hhalf high (by simp) .high htext.1
  obtain ⟨label', hl', hlow⟩ := hhalf low (by simp) .low htext.2
  obtain rfl : label = label' := Option.some.inj (hl.symm.trans hl')
  obtain rfl : [Half.high.of label.address, Half.low.of label.address] = bytes := by
    apply List.map_injective_iff.2 fun _ _ => Option.some.inj
    rw [← hb]
    simp [hhigh, hlow]
  exact ⟨label, hl, Half.join_of label.address⟩

end

/-- An instruction stands at its address with the bytes of its operands behind it. -/
theorem holds_instruction {mem : Memory} (h : (compile source).image = .ok image)
    (hmem : ∀ e ∈ image, mem.get e.address = e.byte) {t : Token}
    (ht : t ∈ (compile source).tokens) (hk : t.kind = .instruction) :
    ∃ op a operands bytes, Takes op t operands ∧ t.address = some a ∧
      (compile source).tokens.filter (·.line == t.line) = t :: operands ∧
      operands.map (·.byte) = bytes.map some ∧ mem.Holds a (op.id :: bytes) := by
  have hclean := clean_tokens_of_image h
  obtain ⟨op, n, operands, htakes, hline, haddr⟩ := line_of_instruction hclean ht hk
  have htokens : ∀ o ∈ t :: operands, o ∈ (compile source).tokens :=
    fun o ho => List.mem_of_mem_filter (hline ▸ ho)
  have hbytes : ∀ o ∈ t :: operands, ∃ b, o.byte = some b ∧
      Encoding.byte? (compile source).labels o = .ok (some b) :=
    fun o ho => byte_of_mem_tokens (htokens o ho) (hclean o (htokens o ho)) (htakes.mem_kind ho).1
  obtain ⟨b, hb, hcode⟩ := hbytes t (List.mem_cons_self ..)
  obtain rfl := byte_of_instruction hk htakes.known hcode
  obtain ⟨bytes, hrest⟩ := exists_bytes fun o ho =>
    (hbytes o (List.mem_cons_of_mem _ ho)).imp fun _ hb => hb.1
  refine ⟨op, .ofNat n, operands, bytes, htakes, (List.cons.inj haddr).1, hline, hrest, ?_⟩
  refine holds_of_addresses ?_ haddr ?_
  · rw [List.map_cons, List.map_cons, hb, hrest]
  · intro o ho a b ha hb
    have hkind : o.kind.takesByte = true := by
      obtain ⟨hl, hd⟩ := htakes.mem_kind ho
      cases hk : o.kind <;> simp [hk, TokenKind.takesByte] at hl hd ⊢
    exact hmem ⟨a, b⟩ (mem_image h (htokens o ho) hkind ha hb)

/-- After a restart and a load of the image a standard machine holds the bytes of the image and zero
elsewhere. From the address of an instruction one clock carries out that instruction with the bytes of
the operands on its line, and goes on behind them unless the instruction redirects it. -/
theorem assembled_instruction_executes (source : Text) (image : Image)
    (h : (compile source).image = .ok image) (m : Machine (RangeLimiter Memory))
    (hm : m.IsStandard) :
    ∃ mem : Memory, (m.restart.load image).2 = ⟨.initial, .flat mem, .running⟩ ∧
      (∀ e ∈ image, mem.get e.address = e.byte) ∧
      (∀ a, (∀ e ∈ image, e.address ≠ a) → mem.get a = 0) ∧
      ∀ t ∈ (compile source).tokens, t.kind = .instruction →
        ∃ op a operands bytes, Opcode.ofMnemonic? t.text = some op ∧ t.address = some a ∧
          (compile source).tokens.filter (·.line == t.line) = t :: operands ∧
          operands.map (·.byte) = bytes.map some ∧ bytes.length = op.immediateBytes ∧
          mem.Holds a (op.id :: bytes) ∧
          ∀ rs : RegisterFile, rs.p = a → ∃ diagnostics rs' mem',
            op.perform bytes (rs.advance (1 + bytes.length)) mem = (rs', mem') ∧
            (Machine.mk rs (.flat mem) .running).clock = (⟨a, diagnostics, op != .hlt⟩,
              ⟨rs', .flat mem', if op = .hlt then .halted .instruction else .running⟩) ∧
            (op.redirects rs = false → rs'.p = a + 1 + .ofNat bytes.length) ∧
            (op = .cla → operands.map (ByteLiteral.value? ·.text) = [some rs'.a.toNat]) ∧
            (op = .clb → operands.map (ByteLiteral.value? ·.text) = [some rs'.b.toNat]) ∧
            (op = .clq → operands.map (ByteLiteral.value? ·.text) = [some rs'.q.toNat]) ∧
            (op = .adr → ∀ name, operands.map (·.text) =
                ['@' :: (name ++ Half.high.suffix), '@' :: (name ++ Half.low.suffix)] →
              ∃ label, (compile source).labels.get? name = some label ∧ rs'.r = label.address) := by
  obtain ⟨empty, hw, hzero, hload⟩ := Machine.load_restart_of_isStandard hm image
  have hstored : ∀ e ∈ image, (empty.storeAll image).get e.address = e.byte :=
    fun e he => Memory.get_storeAll_of_mem hw ((increasing_image h).imp UInt16.ne_of_lt) he
  refine ⟨empty.storeAll image, hload, hstored, fun a ha => ?_, fun t ht hk => ?_⟩
  · exact (Memory.get_storeAll_of_not_mem hw ha).trans (hzero a)
  obtain ⟨op, a, operands, bytes, htakes, haddr, hline, hb, hholds⟩ :=
    holds_instruction h hstored ht hk
  have hlen : bytes.length = op.immediateBytes := by
    have hcount := congrArg List.length hb
    rw [List.length_map, List.length_map] at hcount
    rw [← hcount, ← htakes.accepts.length_eq, op.length_operands]
  have hmem : ∀ o ∈ operands, o ∈ (compile source).tokens :=
    fun o ho => List.mem_of_mem_filter (hline ▸ List.mem_cons_of_mem t ho)
  refine ⟨op, a, operands, bytes, htakes.known, haddr, hline, hb, hlen, hholds, fun rs hp => ?_⟩
  subst hp
  obtain ⟨diagnostics, hclock⟩ := Machine.clock_flat hlen hholds
  refine ⟨diagnostics, (op.perform bytes (rs.advance (1 + bytes.length)) (empty.storeAll image)).1,
    (op.perform bytes (rs.advance (1 + bytes.length)) (empty.storeAll image)).2, rfl, hclock,
    fun hr => ?_, ?_, ?_, ?_, ?_⟩
  · have hr' : op.redirects (rs.advance (1 + bytes.length)) = false := by
      cases op <;> exact hr
    rw [Opcode.p_perform hr']
    simp [RegisterFile.advance, UInt16.add_assoc]
  · rintro rfl
    exact literal_operand h htakes rfl hmem hb
  · rintro rfl
    exact literal_operand h htakes rfl hmem hb
  · rintro rfl
    exact literal_operand h htakes rfl hmem hb
  · rintro rfl name htext
    exact address_operands h htakes hmem hb htext

/-- An address of a label that is bound later, in the machine of the standard configuration. -/
theorem assembled_instruction_executes_standard :
    let source := "ADR @x\nCLA 7\nHLT\nx: 9".toList
    let image : Image := [⟨0, 2⟩, ⟨1, 0⟩, ⟨2, 6⟩, ⟨3, 13⟩, ⟨4, 7⟩, ⟨5, 0⟩, ⟨6, 9⟩]
    (compile source).image = .ok image ∧
      ∃ m mem, MachineConfig.standard.machine = .ok m ∧
        (m.restart.load image).2 = ⟨.initial, .flat mem, .running⟩ ∧
        mem.get 2 = 6 ∧ mem.get 6 = 9 ∧ mem.get 7 = 0 := by
  intro source image
  have h : (compile source).image = .ok image := by decide +kernel
  have hmachine : MachineConfig.standard.machine = .ok (.ofDevices [.unlimited Memory.full]) := rfl
  obtain ⟨mem, hload, hstored, hzero, -⟩ :=
    assembled_instruction_executes source image h _ (Machine.isStandard_of_machine hmachine)
  refine ⟨h, .ofDevices [.unlimited Memory.full], mem, hmachine, hload, ?_, ?_, ?_⟩
  · exact hstored ⟨2, 6⟩ (by decide)
  · exact hstored ⟨6, 9⟩ (by decide)
  · exact hzero 7 (by decide)

end Octet
