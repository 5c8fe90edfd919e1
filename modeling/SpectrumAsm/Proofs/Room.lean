/-
The room that data needs, and where pragmas for the cursor land.

`Pragma.data` is the code of a pragma whatever room there is. Whether there is room for it is asked in
different places; `Step.Puts` says what comes of it.
-/
import SpectrumAsm.Proofs.FailedLines
import SpectrumAsm.Proofs.InstanceBounds

namespace SpectrumAsm

open List Step Assembly

variable {a b : Assembly} {n : Nat} {p : Pragma} {file : Bool} {label : Option String} {code : Code}

theorem Asked.stop (h : Asked a b) : b.stop = a.stop := by
  obtain ⟨_, _, rfl⟩ := h
  rfl

theorem Asked.address (h : Asked a b) : b.address = a.address := by
  obtain ⟨_, _, rfl⟩ := h
  rfl

theorem fillCount_run (a : Assembly) (count : Int64) (unit : Nat) :
    (fillCount count unit).run.run a = (a.fillCount count unit, a) := by
  unfold fillCount
  rw [run_bind, run_get]
  exact run_ofExcept _ a

/-! ## The same room for all data -/

/-- The code a pragma emits, with no regard to the room there is for it. -/
def Pragma.data : Pragma → Step Code
  | .defb es => es.foldlM addByteOf {}
  | .defw es => es.foldlM addWordOf {}
  | .defm e => do return .ofBytes (← messageOf e)
  | .defn e => do return .ofBytes ((← messageOf e) ++ [0])
  | .defc e => do return .ofBytes (markLast (← messageOf e))
  | .defh e => do return .ofBytes (← hexOf e)
  | .defg e => do return .ofBytes (← patternOf Text.patternBytes e)
  | .defgx e => do return .ofBytes (← patternOf Text.alignedPatternBytes e)
  | .defs count => do return .ofBytes (replicate (← evalInt count).toInt.toNat 0)
  | .fillb count value => do
    let n := (← evalInt count).toInt.toNat
    return .ofBytes (replicate n (lowByte (← evalInt value)))
  | .fillw count value => do
    let n := (← evalInt count).toInt.toNat
    return .ofBytes (repeatWord n (lowWord (← evalInt value)))
  | .skip target fill => do
    let (count, b) ← skipOf target fill
    return .ofBytes (replicate count.toInt.toNat b)
  | .includebin file offset length => do return .ofBytes (← fileOf file offset length)
  | _ => throw .structContent

/-- The operands of a pragma evaluate in a state without a fault, and its data has so many bytes. -/
def Pragma.Brings (p : Pragma) (a : Assembly) (n : Nat) : Prop :=
  ∃ code b, p.data.run.run a = (.ok code, b) ∧ code.bytes.size = n

def Pragma.isFile : Pragma → Bool
  | .includebin .. => true
  | _ => false

/-- So many bytes end inside the memory; those of a file, as labels see it, before the last address. -/
def Assembly.HasRoom (a : Assembly) (file : Bool) (n : Nat) : Prop :=
  n = 0 ∨ a.stop + n ≤ memoryEnd ∧ (file = true → a.address.toNat + n < memoryEnd)

/-- A step that puts the code into the segment that another one collects, and stops at a fault if there is
no room for it. -/
def Step.Puts (file : Bool) (x : Step Unit) (y : Step Code) : Prop :=
  ∀ a code b, y.run.run a = (.ok code, b) → Asked a b ∧
    (a.HasRoom file code.bytes.size → ∃ c, x.run.run a = (.ok (), c) ∧ b.emit code = (.ok (), c)) ∧
    (¬ a.HasRoom file code.bytes.size →
      ∃ fault c, x.run.run a = (.error fault, c) ∧ (file = false → fault = .addressOverflow))

theorem Asked.hasRoom (h : Asked a b) : b.HasRoom file n ↔ a.HasRoom file n := by
  unfold HasRoom
  rw [h.stop, h.address]

namespace Step.Puts

variable {α : Type} {x : Step Unit} {y : Step Code} {count : Int64}

theorem emit (code : Code) : (emitCode code).Puts false (pure code) := by
  rintro a _ _ ⟨⟩
  have hrun : (emitCode code).run.run a = a.emit code := rfl
  have hroom : a.HasRoom false code.bytes.size ↔ code.bytes.size = 0 ∨ a.stop + code.bytes.size ≤ memoryEnd := by
    simp [HasRoom]
  rw [hroom, hrun, ← stop_openSegment]
  refine ⟨.refl a, ?_⟩
  rcases a.emit_cases code with ⟨hempty, he⟩ | ⟨hfull, he⟩ | ⟨s, hs, hfits, he⟩
  · exact ⟨fun _ => ⟨a, he, he⟩, fun hno => absurd (.inl (by simp [hempty])) hno⟩
  · refine ⟨fun hroom => ?_, fun _ => ⟨_, _, he, fun _ => rfl⟩⟩
    have hempty : code.bytes = #[] := Array.eq_empty_of_size_eq_zero (by omega)
    exact ⟨a, by simp [Assembly.emit, hempty], by simp [Assembly.emit, hempty]⟩
  · refine ⟨fun _ => ⟨_, he, he⟩, fun hno => absurd (.inr ?_) hno⟩
    rw [stop, hs]
    exact hfits

theorem throw (fault : Fault) : x.Puts file (throw fault) := by
  intro a code b h
  cases h

theorem bind {x : Step α} {f : α → Step Unit} {g : α → Step Code} (hx : x.Keeps Asked)
    (h : ∀ v, (f v).Puts file (g v)) : (x >>= f).Puts file (x >>= g) := by
  intro a code c hc
  have ha := hx a
  obtain ⟨v, b, hv, hg⟩ := run_bind_inv hc
  rw [hv] at ha
  obtain ⟨hasked, hput⟩ := h v b code c hg
  rw [run_bind_ok hv, ← ha.hasRoom]
  exact ⟨ha.trans hasked, hput⟩

theorem values (size : OperandSize) (es : List Expr) : (emitValues size.add es).Puts false (es.foldlM size.add {}) := by
  have h := bind (fun a => (foldlM_builds size.add_builds es {} a .nil).1) emit
  rwa [bind_pure] at h

theorem counted {unit : Nat} {f : Nat → Step Unit} (hf : (f count.toInt.toNat).Puts false y)
    (hsize : ∀ a code b, y.run.run a = (.ok code, b) → code.bytes.size = count.toInt.toNat * unit) :
    (fillCount count unit >>= f).Puts false y := by
  intro a code b hy
  obtain ⟨hasked, hput⟩ := hf a code b hy
  refine ⟨hasked, ?_⟩
  rw [hsize a code b hy] at hput ⊢
  rw [run_bind, fillCount_run]
  unfold Assembly.fillCount
  by_cases hfull : count.toInt.toNat * unit > memoryEnd - a.stop
  · rw [if_pos hfull]
    refine ⟨fun hroom => ?_, fun _ => ⟨_, a, rfl, fun _ => rfl⟩⟩
    unfold HasRoom at hroom
    omega
  · rw [if_neg hfull]
    exact hput

theorem fill (count : Int64) (b : UInt8) :
    (emitFill count b).Puts false (pure (.ofBytes (replicate count.toInt.toNat b))) := by
  refine counted (emit _) ?_
  rintro _ _ _ ⟨⟩
  simp [Code.ofBytes]

theorem ofFile (bytes : List UInt8) : Step.Puts true (do
      if memoryEnd ≤ (← get).address.toNat + bytes.length then MonadExcept.throw Fault.includeBinOverflow
      emitBytes bytes) (pure (.ofBytes bytes)) := by
  rintro a _ _ ⟨⟩
  obtain ⟨hasked, hput, hfull⟩ := emit (.ofBytes bytes) a _ a rfl
  refine ⟨hasked, ?_⟩
  rw [run_bind, run_get]
  simp only [HasRoom, Code.ofBytes, size_toArray, Bool.false_eq_true, false_imp_iff, and_true,
    forall_const, reduceCtorEq] at hput hfull ⊢
  have haddress := a.address.toNat_lt
  by_cases hlast : memoryEnd ≤ a.address.toNat + bytes.length
  · rw [if_pos hlast]
    refine ⟨fun hroom => ?_, fun _ => ⟨_, a, rfl⟩⟩
    unfold memoryEnd at *
    omega
  · rw [if_neg hlast]
    refine ⟨fun hroom => hput (by omega), fun hno => ?_⟩
    obtain ⟨fault, c, hc, -⟩ := hfull (by omega)
    exact ⟨fault, c, hc⟩

theorem pragma (label : Option String) (p : Pragma) : (runPragma label p).Puts p.isFile p.data := by
  cases p with
  | defb es => exact values .byte es
  | defw es => exact values .word es
  | defm e | defn e | defc e => exact bind (messageOf_asked e) fun _ => emit _
  | defh e => exact bind (hexOf_asked e) fun _ => emit _
  | defg e | defgx e => exact bind (patternOf_asked _ e) fun _ => emit _
  | defs count => exact bind (evalInt_asked count) fun n => fill n 0
  | fillb count value =>
    refine bind (evalInt_asked count) fun n =>
      counted (bind (evalInt_asked value) fun v => emit _) fun a code b h => ?_
    obtain ⟨v, c, -, ⟨⟩⟩ := run_bind_inv h
    simp [Code.ofBytes]
  | fillw count value =>
    refine bind (evalInt_asked count) fun n =>
      counted (bind (evalInt_asked value) fun v => emit _) fun a code b h => ?_
    obtain ⟨v, c, -, ⟨⟩⟩ := run_bind_inv h
    simp [Code.ofBytes, repeatWord, littleEndian]
  | skip target filler => exact bind (skipOf_asked target filler) fun x => fill x.1 x.2
  | includebin name offset length => exact bind (fileOf_asked name offset length) ofFile
  | _ => exact throw _

end Step.Puts

namespace Assembly

theorem back?_emit (h : a.emit code = (.ok (), b)) : code.bytes = #[] ∧ b = a ∨
    ∃ s, a.openSegment.segments.back? = some s ∧ b.segments.back? = some { s with bytes := s.bytes ++ code.bytes } := by
  rcases a.emit_cases code with ⟨hempty, he⟩ | ⟨-, he⟩ | ⟨s, hs, -, he⟩ <;> rw [he] at h <;> cases h
  · exact .inl ⟨hempty, rfl⟩
  · refine .inr ⟨s, hs, ?_⟩
    rw [Array.back?_eq_getElem?] at hs ⊢
    simp [appended, Array.getElem?_modify, lastSegment, hs]

theorem stop_emit (h : a.emit code = (.ok (), b)) : b.stop = a.stop + code.bytes.size := by
  rcases back?_emit h with ⟨hempty, rfl⟩ | ⟨s, hs, hb⟩
  · simp [hempty]
  · rw [← stop_openSegment a, stop, stop, hs, hb]
    simp [Segment.stop, Nat.add_assoc]

end Assembly

/-- Data of every kind needs the same room. If in some state the operands of a pragma evaluate to `n` bytes,
the pragma succeeds if they end inside the memory, and otherwise it fails and emits nothing; but for the bytes
of a file, their end as labels see it has to be inside the memory too, the last address not included. -/
theorem data_needs_room (hn : 0 < n) (hp : p.Brings a n) (label : Option String) :
    let fits := a.stop + n ≤ memoryEnd ∧ (p.isFile = true → a.address.toNat + n < memoryEnd)
    (fits → ∃ b, (runPragma label p).run.run a = (.ok (), b) ∧ b.stop = a.stop + n) ∧
      (¬ fits → ∃ fault b, (runPragma label p).run.run a = (.error fault, b) ∧ a.Undone b) := by
  obtain ⟨code, b, hdata, rfl⟩ := hp
  obtain ⟨hasked, hput, hfull⟩ := Puts.pragma label p a code b hdata
  refine ⟨fun hfits => ?_, fun hfits => ?_⟩
  · obtain ⟨c, hc, he⟩ := hput (.inr hfits)
    exact ⟨c, hc, by rw [stop_emit he, hasked.stop]⟩
  · obtain ⟨fault, c, hc, -⟩ := hfull fun hroom => hroom.elim (by omega) hfits
    exact ⟨fault, c, hc, runPragma_atomic label p a c fault hc⟩

/-- Two bytes before the end of the memory, with a file of two bytes. -/
def twoBytesLeft : Assembly :=
  .new { options := { defaultStart := 0xFFFE }, tree := { files := [(["two.bin"], ⟨#[1, 2]⟩)] } }

/-- Two bytes of a text fit at the end of the memory, and two bytes of a file do not. -/
theorem data_needs_room_two :
    let text := Pragma.defm (.text "ab")
    let file := Pragma.includebin (.text "two.bin") none none
    text.Brings twoBytesLeft 2 ∧ file.Brings twoBytesLeft 2 ∧
      (∃ b, (runPragma none text).run.run twoBytesLeft = (.ok (), b) ∧ b.stop = 0x10000) ∧
      ∃ fault b, (runPragma none file).run.run twoBytesLeft = (.error fault, b) ∧ twoBytesLeft.Undone b := by
  have htext : (Pragma.defm (.text "ab")).Brings twoBytesLeft 2 := ⟨_, _, rfl, rfl⟩
  have hfile : (Pragma.includebin (.text "two.bin") none none).Brings twoBytesLeft 2 :=
    ⟨.ofBytes [1, 2], _, by rfl, rfl⟩
  exact ⟨htext, hfile, (data_needs_room (by decide) htext none).1 (by decide),
    (data_needs_room (by decide) hfile none).2 (by decide)⟩

/-! ## The cursor -/

theorem lowWord_toNat (n : Int64) : ((lowWord n).toNat : Int) = n.toInt % memoryEnd := by
  have h : n.toInt =
      if 2 * n.toUInt64.toNat < 2 ^ 64 then (n.toUInt64.toNat : Int) else n.toUInt64.toNat - (2 ^ 64 : Nat) :=
    BitVec.toInt_eq_toNat_cond n.toBitVec
  have hw : (lowWord n).toNat = n.toUInt64.toNat % 2 ^ 16 := UInt64.toNat_toUInt16 _
  rw [hw, h]
  unfold memoryEnd
  split <;> omega

theorem Assembly.address_emit (h : a.emit code = (.ok (), b)) :
    b.address.toNat = (a.address.toNat + code.bytes.size) % memoryEnd := by
  rcases back?_emit h with ⟨hempty, rfl⟩ | ⟨s, hs, hb⟩
  · have := b.address.toNat_lt
    simp only [hempty, size_toArray, length_nil, memoryEnd]
    omega
  · rw [← (Undone.openSegment a).address, address, address, hs, hb]
    simp only [Segment.here, Segment.wordAt, Segment.addressAt, toNat_ofInt_word, Array.size_append, memoryEnd]
    omega

theorem Assembly.setOrigin_lands (a : Assembly) (w : UInt16) :
    (a.setOrigin w).stop = w.toNat ∧ ((a.setOrigin w).address.toNat : Int) =
      (w.toNat + if a.segmentSize a.lastSegment = 0 then a.displacement.toInt else 0) % memoryEnd := by
  have hlands {b : Assembly} {s : Segment} (hb : b.segments.back? = some s) (hs : s.bytes = #[])
      (hw : s.start = w) : b.stop = w.toNat ∧
        (b.address.toNat : Int) = (w.toNat + (s.displacement.getD 0).toInt) % memoryEnd := by
    rw [stop, address, hb]
    simp only [Segment.stop, Segment.here, Segment.wordAt, Segment.addressAt, toNat_ofInt_word, hs, hw,
      size_toArray, length_nil, memoryEnd]
    omega
  unfold setOrigin
  cases hb : a.segments.back? with
  | none =>
    have h := hlands (b := { a with segments := a.segments.push { start := w } })
      (s := { start := w }) (by simp) rfl rfl
    simpa [displacement, hb] using h
  | some s =>
    have hlast : a.segments[a.lastSegment]? = some s := by rw [← hb, Array.back?_eq_getElem?]; rfl
    have hsize : a.segmentSize a.lastSegment = s.bytes.size := by simp [segmentSize, hlast]
    dsimp only
    split
    · next hempty =>
      rw [hsize, if_pos (by simpa using hempty), displacement, hb]
      refine hlands (s := { s with start := w }) ?_ (by simpa using hempty) rfl
      rw [Array.back?_eq_getElem?] at hb ⊢
      simp [Array.getElem?_modify, lastSegment, hb]
    · next hempty =>
      rw [hsize, if_neg (by simpa using hempty)]
      exact hlands (s := { start := w }) (by simp) rfl rfl

theorem org_lands {e : Expr} (h : (setOrigin e label).run.run a = (.ok (), b)) :
    ∃ v c, (evalInt e).run.run a = (.ok v, c) ∧ (b.stop : Int) = v.toInt % memoryEnd ∧ (b.address.toNat : Int) =
        (v.toInt + if a.segmentSize a.lastSegment = 0 then a.displacement.toInt else 0) % memoryEnd := by
  obtain ⟨v, c, hv, hset⟩ := run_bind_inv h
  have hasked := evalInt_asked e a
  rw [hv] at hasked
  obtain ⟨symbols, diagnostics, rfl⟩ : ∃ symbols diagnostics,
      b = { c.setOrigin (lowWord v) with symbols, diagnostics } := by
    cases label with
    | none =>
      cases hset
      exact ⟨_, _, rfl⟩
    | some name =>
      obtain ⟨_, _, hbind⟩ := (c.setOrigin (lowWord v)).bindLabel_eq name (lowWord v)
      cases hset
      exact ⟨_, _, hbind⟩
  obtain ⟨hstop, haddress⟩ := c.setOrigin_lands (lowWord v)
  rw [lowWord_toNat, Int.emod_add_emod] at haddress
  obtain ⟨_, _, rfl⟩ := hasked
  refine ⟨v, _, hv, ?_, haddress⟩
  rw [← lowWord_toNat]
  exact congrArg _ hstop

theorem skip_lands {target : Expr} {fill : Option Expr} (h : (emitSkip target fill).run.run a = (.ok (), b)) :
    ∃ v c, (evalInt target).run.run a = (.ok v, c) ∧ (b.address.toNat : Int) = v.toInt % memoryEnd := by
  obtain ⟨⟨count, byte⟩, d, hskip, hfill⟩ := run_bind_inv h
  have hd := skipOf_asked target fill a
  have hc := evalInt_asked target a
  rw [hskip] at hd
  obtain ⟨v, c, hv, hcount⟩ := run_bind_inv hskip
  rw [hv] at hc
  refine ⟨v, c, hv, ?_⟩
  rw [run_bind, run_get] at hcount
  dsimp only at hcount
  split at hcount
  · cases hcount
  next hahead =>
  obtain rfl : count = v - Int64.ofNat c.address.toNat := by
    cases fill with
    | none =>
      cases hcount
      rfl
    | some e =>
      obtain ⟨_, _, -, ⟨⟩⟩ := run_bind_inv hcount
      rfl
  obtain ⟨n, _, hn, he⟩ := run_bind_inv hfill
  rw [fillCount_run, Prod.mk.injEq] at hn
  obtain ⟨hn, rfl⟩ := hn
  unfold Assembly.fillCount at hn
  dsimp only at hn
  split at hn <;> cases hn
  have hcurrent := c.address.toNat_lt
  have hv := v.toInt_lt
  rw [address_emit he, hd.address, ← hc.address, Int64.toInt_sub, Int64.toInt_ofNat_of_lt (by omega),
    Int.bmod_eq_of_le (by omega) (by omega)]
  simp only [Code.ofBytes, size_toArray, length_replicate, memoryEnd]
  omega

theorem multiple_reached {current n : Nat} (hn : 0 < n) (hsmall : n ≤ 0x4000) (hc : current < memoryEnd) :
    n ∣ (current + (n - current % n) % n) % memoryEnd ↔
      current + (n - current % n) % n < memoryEnd ∨ n ∣ memoryEnd := by
  have hlt : (n - current % n) % n < n := Nat.mod_lt _ hn
  have hdvd : n ∣ current + (n - current % n) % n := by
    rw [Nat.dvd_iff_mod_eq_zero, Nat.add_mod, Nat.mod_mod]
    rcases Nat.eq_zero_or_pos (current % n) with h | h
    · simp [h]
    · have := Nat.mod_lt current hn
      rw [Nat.mod_eq_of_lt (by omega : n - current % n < n), Nat.add_sub_of_le (by omega), Nat.mod_self]
  have hbelow : current + (n - current % n) % n < memoryEnd + 0x4000 := by omega
  generalize current + (n - current % n) % n = reached at *
  by_cases hin : reached < memoryEnd
  · simp [Nat.mod_eq_of_lt hin, hdvd, hin]
  · have hmod : reached % memoryEnd = reached - memoryEnd := by unfold memoryEnd at *; omega
    rw [hmod, Nat.dvd_sub_iff_right (by omega) hdvd]
    simp [hin]

theorem align_lands {e : Option Expr} (h : (emitAlign e).run.run a = (.ok (), b)) : ∃ n emitted : Nat,
    (e = none ∧ n = 0x100 ∨ ∃ x v c, e = some x ∧ (evalInt x).run.run a = (.ok v, c) ∧ v.toInt = n) ∧
      emitted < n ∧ b.stop = a.stop + emitted ∧
      (n ∣ b.address.toNat ↔ a.address.toNat + emitted < memoryEnd ∨ n ∣ memoryEnd) := by
  have hlands {c : Assembly} {n : Nat} (hc : Asked a c) (hn : 0 < n) (hsmall : n ≤ 0x4000)
      (he : c.emit (.ofBytes (replicate ((n - c.address.toNat % n) % n) 0)) = (.ok (), b)) :
      ∃ emitted, emitted < n ∧ b.stop = a.stop + emitted ∧
        (n ∣ b.address.toNat ↔ a.address.toNat + emitted < memoryEnd ∨ n ∣ memoryEnd) := by
    have hsize : (Code.ofBytes (replicate ((n - c.address.toNat % n) % n) 0)).bytes.size =
        (n - c.address.toNat % n) % n := by simp [Code.ofBytes]
    refine ⟨(n - c.address.toNat % n) % n, Nat.mod_lt _ hn, ?_, ?_⟩
    · rw [stop_emit he, hsize, hc.stop]
    · rw [address_emit he, hsize, hc.address]
      exact multiple_reached hn hsmall a.address.toNat_lt
  cases e with
  | none =>
    obtain ⟨emitted, hl⟩ := hlands (.refl a) (by decide : 0 < 0x100) (by decide) h
    exact ⟨0x100, emitted, .inl ⟨rfl, rfl⟩, hl⟩
  | some x =>
    obtain ⟨v, c, hv, h⟩ := run_bind_inv h
    have hc := evalInt_asked x a
    rw [hv] at hc
    split at h
    · next hrange =>
      have hlow : 1 ≤ v.toInt := Int64.le_iff_toInt_le.1 hrange.1
      have hhigh : v.toInt ≤ 0x4000 := Int64.le_iff_toInt_le.1 hrange.2
      obtain ⟨emitted, hl⟩ := hlands hc (by omega) (by omega) h
      exact ⟨v.toInt.toNat, emitted, .inr ⟨x, v, c, rfl, hv, by omega⟩, hl⟩
    · cases h

/-- Where the cursor pragmas land, in any state. After `.org` bytes go to the value of its operand, modulo
65536; so does the address that labels see, moved by the displacement of a segment that was still empty. After
`.skip` that address is the value of its operand. `.align` emits fewer bytes than it is given, and leads to a
multiple of it, unless the address has passed the end of the memory. -/
theorem cursor_lands (a : Assembly) (label : Option String) :
    (∀ e b, (runPragma label (.org e)).run.run a = (.ok (), b) → ∃ v c, (evalInt e).run.run a = (.ok v, c) ∧
      (b.stop : Int) = v.toInt % memoryEnd ∧ (b.address.toNat : Int) =
        (v.toInt + if a.segmentSize a.lastSegment = 0 then a.displacement.toInt else 0) % memoryEnd) ∧
    (∀ target fill b, (runPragma label (.skip target fill)).run.run a = (.ok (), b) →
      ∃ v c, (evalInt target).run.run a = (.ok v, c) ∧ (b.address.toNat : Int) = v.toInt % memoryEnd) ∧
    ∀ e b, (runPragma label (.align e)).run.run a = (.ok (), b) → ∃ n emitted : Nat,
      (e = none ∧ n = 0x100 ∨ ∃ x v c, e = some x ∧ (evalInt x).run.run a = (.ok v, c) ∧ v.toInt = n) ∧
      emitted < n ∧ b.stop = a.stop + emitted ∧
      (n ∣ b.address.toNat ↔ a.address.toNat + emitted < memoryEnd ∨ n ∣ memoryEnd) :=
  ⟨fun _ _ => org_lands, fun _ _ _ => skip_lands, fun _ _ => align_lands⟩

/-- In a displaced segment that is still empty, `.org` does not lead to the value of its operand, and `.align`
may go past the end of the memory. -/
theorem displaced_cursor_misses :
    let displaced (d : Int32) : Assembly :=
      { new {} with segments := #[{ start := 0x6000, displacement := some d }] }
    (∀ d, Reachable (displaced d)) ∧
      (∃ b, (runPragma none (.org (.int 0x7000))).run.run (displaced 16) = (.ok (), b) ∧ b.address = 0x7010) ∧
      ∃ b, (runPragma none (.align (some (.int 7)))).run.run (displaced 0x9FFF) = (.ok (), b) ∧ b.address = 5 :=
  ⟨fun d => ⟨{}, .tail (.single (.setOrigin rfl 0x6000)) (.displace _ d)⟩, ⟨_, rfl, by decide⟩, _, rfl, by decide⟩

/-- From 0x8001 on, `.align 7` leads to a multiple of 7. -/
theorem cursor_lands_multiple : ∃ a b, a.address = 0x8001 ∧
    (runPragma none (.align (some (.int 7)))).run.run a = (.ok (), b) ∧ b.stop < a.stop + 7 ∧ 7 ∣ b.address.toNat := by
  have hrun : (runPragma none (.align (some (.int 7)))).run.run
    (.new { options := { defaultStart := 0x8001 } }) = (.ok (), _) := rfl
  obtain ⟨n, emitted, ⟨⟨⟩, -⟩ | ⟨_, _, _, ⟨⟩, ⟨⟩, hn⟩, hfew, hstop, hlands⟩ := (cursor_lands _ none).2.2 _ _ hrun
  obtain rfl : 7 = n := Int.ofNat_inj.1 hn
  refine ⟨_, _, rfl, hrun, by omega, hlands.2 (.inl ?_)⟩
  show 0x8001 + emitted < 0x10000
  omega

end SpectrumAsm
