import TargetView.Proofs.Bytes
import TargetView.Proofs.Exactness
import TargetView.Proofs.Numerals
import TargetView.Proofs.Runs
import TargetView.Proofs.Snapshot

/-! # One value for each word

A 64-bit word comes into an evaluation as a number literal, from a register, from
memory, or as the number of bytes in use.  It is the same value everywhere
(`WordEntries`): the number itself if numbers hold it exactly, and otherwise the
integer with the same bits.  Such an integer is shown with the digits of the
word, and these denote it again (`word_values_agree`).
-/
namespace TargetView

/-! ## Literals -/

namespace Literal

theorem toScalar_ofNat (w : UInt64) : (ofNat w.toNat).toScalar = .ofWord w := by
  unfold ofNat Scalar.ofWord
  split
  · rfl
  · rw [← UInt64.toInt64_ofNat', UInt64.ofNat_toNat]
    rfl

theorem ofNat_of_lt {w : UInt64} (h : 2 ^ 53 < w.toNat) : ofNat w.toNat = .int w.toInt64 := by
  have hbig : ¬ w.toNat ≤ Scalar.maxExact := Nat.not_le.mpr h
  rw [ofNat, if_neg hbig, ← UInt64.toInt64_ofNat', UInt64.ofNat_toNat]

/-- The decimal digits of a word are a literal of it. -/
theorem decimal (w : UInt64) : Word.IsLexeme ⟨.number, toString w.toNat⟩ ∧
    decode (toString w.toNat) = .ok (ofNat w.toNat) := by
  have hdigits : Number.readDigits 10 UInt64.size 0 (Nat.toDigits 10 w.toNat) = .ok w.toNat :=
    Number.readDigits_toDigits (by decide) Number.digit?_digitChar_ten w.toNat_lt
  have hne : Nat.toDigits 10 w.toNat ≠ [] := Nat.toDigits_ne_nil
  rw [Nat.toString_eq_ofList_toDigits]
  refine ⟨Lexer.isLexeme_decimal hne hdigits, ?_⟩
  rw [decode, String.toList_ofList, decodeChars_decimal hne hdigits]

/-- The hexadecimal digits of a word, in any case, are a literal of it behind
`0x`. -/
theorem hexadecimal {w : UInt64} {digits : List Char}
    (h : digits.map Char.toLower = Nat.toDigits 16 w.toNat) :
    Word.IsLexeme ⟨.number, String.ofList ('0' :: 'x' :: digits)⟩ ∧
      decode (String.ofList ('0' :: 'x' :: digits)) = .ok (ofNat w.toNat) := by
  have hdigits : Number.readDigits 16 UInt64.size 0 digits = .ok w.toNat := by
    rw [← Number.readDigits_map_toLower, h]
    exact Number.readDigits_toDigits (by decide) Number.digit?_digitChar_sixteen w.toNat_lt
  have hne : digits ≠ [] := by
    rintro rfl
    exact Nat.toDigits_ne_nil h.symm
  refine ⟨Lexer.isLexeme_hex hdigits, ?_⟩
  rw [decode, String.toList_ofList, decodeChars_hex hne hdigits]

/-- Written digits have small letters only. -/
theorem map_toLower_toDigits (n : Nat) :
    (Nat.toDigits 16 n).map Char.toLower = Nat.toDigits 16 n := by
  have hdigit : ∀ d < 16, d.digitChar.toLower = d.digitChar := by decide
  induction n using Nat.strongRecOn with
  | ind n ih =>
    by_cases hlt : n < 16
    · rw [Nat.toDigits_of_lt_base hlt, List.map_singleton, hdigit n hlt]
    · rw [Nat.toDigits_of_base_le (by decide) (Nat.le_of_not_lt hlt), List.map_append,
        ih (n / 16) (by omega), List.map_singleton, hdigit _ (Nat.mod_lt n (by decide))]

end Literal

/-! ## Hosts -/

namespace Host

variable {σ : Type} (host : Host σ) (scope : Option Ref)

/-- Where the host leaves the answer to its statistics, the bytes in use are
given as a word. -/
theorem run_calcMemUsed {args : List Value} {s s₁ s₂ s₃ : σ} {w : UInt64}
    (hdispatch : (host.dispatch .calcMemUsed args).run s = (none, s₁))
    (hmemory : (host.memoryInUse args).run s₁ = (none, s₂))
    (hbytes : host.bytesUsed.run s₂ = (some w, s₃)) :
    (host.callIntrinsic scope .calcMemUsed args).run.run s = (.ok (.scalar (.ofWord w)), s₃) := by
  have hbuiltin : host.builtinMemoryInUse.run.run s₂ = (.ok (.scalar (.ofWord w)), s₃) := by
    unfold builtinMemoryInUse
    rw [run_liftM_bind hbytes]
    rfl
  unfold callIntrinsic
  rw [run_liftM_bind hdispatch]
  change ((liftM (host.memoryInUse args) >>= _ : Eval σ Value)).run.run s₁ = _
  rw [run_liftM_bind hmemory]
  exact hbuiltin

end Host

namespace Machine

variable {τ : Type} (t : Target τ) (formatter : Formatter) (scope : Option Ref) {m m' : Machine τ}

/-- The register holds a word: the target has it, and the cache has nothing
else. -/
structure Holds (t : Target τ) (m : Machine τ) (name : String) (w : UInt64) : Prop where
  target : ((t.readRegister name).run m.target).1 = some w
  cached : ∀ v ∈ m.registers.fresh? name, v = RegisterCache.ofWord w

theorem Holds.readRegister {name : String} {w : UInt64} (h : Holds t m name w) :
    ((Machine.readRegister t name).run m).1 = some (RegisterCache.ofWord w) := by
  cases hfresh : m.registers.fresh? name with
  | some v =>
    rw [run_readRegister_of_fresh t m hfresh, h.cached v hfresh]
  | none =>
    rcases hread : (t.readRegister name).run m.target with ⟨bits?, target⟩
    have hbits := h.target
    rw [hread] at hbits
    obtain rfl : bits? = some w := hbits
    rw [run_readRegister_of_not_fresh t m hfresh hread]
    rfl

/-- `__GetRegVal` gives what is read for the register. -/
theorem run_getRegVal {name : String} (hpath : isPath name = false) {v : Value}
    (h : (Machine.readRegister t name).run m = (some v, m')) :
    ((host t formatter).callIntrinsic scope .getRegVal [.text name]).run.run m = (.ok v, m') := by
  have hcall : (host t formatter).callIntrinsic scope .getRegVal [.text name] =
      (host t formatter).builtinRegister name := rfl
  have hhas : (host t formatter).hasRegisters.run m = (true, m) := rfl
  have hread : ((host t formatter).registerValue name).run m = (some v, m') := h
  rw [hcall]
  unfold Host.builtinRegister
  rw [run_liftM_bind hhas]
  simp only [hpath, Bool.false_eq_true, if_true, if_false]
  rw [run_liftM_bind hread]
  rfl

end Machine

/-! ## Entries -/

/-- Everything that a word can enter by gives one value. -/
structure WordEntries (w : UInt64) (v : Value) : Prop where
  /-- The text of its decimal digits, evaluated on any host. -/
  decimal {σ : Type} (host : Host σ) (scope : Option Ref) :
    Evaluation.run host scope (parse (toString w.toNat)) = pure v
  /-- The text of its hexadecimal digits, whatever their case. -/
  hexadecimal {σ : Type} (host : Host σ) (scope : Option Ref) (digits : List Char) :
    digits.map Char.toLower = Nat.toDigits 16 w.toNat →
    Evaluation.run host scope (parse (String.ofList ('0' :: 'x' :: digits))) = pure v
  /-- A register that holds it. -/
  register {τ : Type} (t : Target τ) (m : Machine τ) (name : String) :
    m.Holds t name w → ((Machine.readRegister t name).run m).1 = some v
  /-- A register that holds it, asked for in an expression. -/
  registerCall {τ : Type} (t : Target τ) (formatter : Formatter) (scope : Option Ref)
    (m : Machine τ) (name : String) : isPath name = false → m.Holds t name w →
    (((Machine.host t formatter).callIntrinsic scope .getRegVal [.text name]).run.run m).1 = .ok v
  /-- Memory that begins with its bytes. -/
  memory (order : ByteOrder) (behind : List UInt8) :
    ElementType.u64.decode order (order.encode 8 w.toNat ++ behind) = v
  /-- That many bytes in use, where the host leaves the answer to its
  statistics. -/
  statistics {σ : Type} (host : Host σ) (scope : Option Ref) (args : List Value)
    (s s₁ s₂ s₃ : σ) : (host.dispatch .calcMemUsed args).run s = (none, s₁) →
    (host.memoryInUse args).run s₁ = (none, s₂) → host.bytesUsed.run s₂ = (some w, s₃) →
    (host.callIntrinsic scope .calcMemUsed args).run.run s = (.ok v, s₃)

theorem wordEntries (w : UInt64) : WordEntries w (.scalar (.ofWord w)) where
  decimal host scope := by
    obtain ⟨hlexeme, hdecode⟩ := Literal.decimal w
    rw [← Literal.toScalar_ofNat]
    exact Evaluation.run_number host scope hlexeme hdecode
  hexadecimal host scope digits h := by
    obtain ⟨hlexeme, hdecode⟩ := Literal.hexadecimal h
    rw [← Literal.toScalar_ofNat]
    exact Evaluation.run_number host scope hlexeme hdecode
  register t m name h := h.readRegister
  registerCall t formatter scope m name hpath h := by
    rcases hread : (Machine.readRegister t name).run m with ⟨v?, m'⟩
    have hv := h.readRegister
    rw [hread] at hv
    obtain rfl : v? = some (RegisterCache.ofWord w) := hv
    rw [Machine.run_getRegVal t formatter scope hpath hread]
    rfl
  memory order behind := by
    have hlt : w.toNat < 256 ^ 8 := Nat.lt_of_lt_of_eq w.toNat_lt (by decide)
    have hword : UInt64.ofNat (w.toNat % 256 ^ 8) = w := by
      rw [Nat.mod_eq_of_lt hlt, UInt64.ofNat_toNat]
    have hdecode := ElementType.u64.decode_encode order w.toNat behind
    change _ = ElementType.u64.ofWord (UInt64.ofNat (w.toNat % 256 ^ 8)) at hdecode
    rw [hword] at hdecode
    exact hdecode
  statistics host scope args _ _ _ _ hdispatch hmemory hbytes :=
    host.run_calcMemUsed scope hdispatch hmemory hbytes

/-! ## Integers that are shown -/

theorem ofWord_of_le {w : UInt64} (h : w.toNat ≤ 2 ^ 53) :
    Scalar.ofWord w = .number (Binary64.ofNat w.toNat) :=
  if_pos h

theorem ofWord_of_lt {w : UInt64} (h : 2 ^ 53 < w.toNat) : Scalar.ofWord w = .int w.toInt64 :=
  if_neg (Nat.not_le.mpr h)

/-- An integer shows the digits of its bits, and they are read as it again. -/
structure ShowsDigits (w : UInt64) (i : Int64) : Prop where
  unsigned : (Value.int i).render .unsigned = toString w.toNat
  hex : (Value.int i).render .hex = String.ofList (Nat.toDigits 16 w.toNat)
  decode_unsigned : Literal.decode ((Value.int i).render .unsigned) = .ok (.int i)
  decode_hex : Literal.decode ("0x" ++ (Value.int i).render .hex) = .ok (.int i)

theorem showsDigits {w : UInt64} (h : 2 ^ 53 < w.toNat) : ShowsDigits w w.toInt64 where
  unsigned := rfl
  hex := rfl
  decode_unsigned := by
    rw [← Literal.ofNat_of_lt h]
    exact (Literal.decimal w).2
  decode_hex := by
    rw [← Literal.ofNat_of_lt h]
    have hbase : "0x" = String.ofList ['0', 'x'] := rfl
    have hhex : (Value.int w.toInt64).render .hex = String.ofList (Nat.toDigits 16 w.toNat) := rfl
    rw [hhex, hbase, ← String.ofList_append]
    exact (Literal.hexadecimal (Literal.map_toLower_toDigits w.toNat)).2

/-- **All that a word enters by agrees**, and nothing of it is lost.  Its value is
the number that it spells if that is at most `2 ^ 53`, which numbers hold
exactly, and otherwise the integer with the same bits; this one is shown with
the digits of the word, in either base, and the digits denote it. -/
theorem word_values_agree (w : UInt64) :
    ∃ v : Value, WordEntries w v ∧
      (w.toNat ≤ 2 ^ 53 → v = .number (Binary64.ofNat w.toNat) ∧
        Binary64.integer? (Binary64.ofNat w.toNat) = some (w.toNat : Int)) ∧
      (2 ^ 53 < w.toNat → v = .int w.toInt64 ∧ w.toInt64.toUInt64 = w) ∧
      ∀ i : Int64, v = .int i → ShowsDigits w i := by
  refine ⟨.scalar (.ofWord w), wordEntries w, fun h => ⟨?_, Binary64.integer?_ofNat h⟩,
    fun h => ⟨?_, rfl⟩, fun i hi => ?_⟩
  · rw [ofWord_of_le h]
    rfl
  · rw [ofWord_of_lt h]
    rfl
  · rcases Nat.lt_or_ge (2 ^ 53) w.toNat with hlt | hle
    · rw [ofWord_of_lt hlt] at hi
      cases hi
      exact showsDigits hlt
    · rw [ofWord_of_le hle] at hi
      cases hi

/-- A word whose highest bit is set comes in as a negative integer, from wherever
it comes, and goes out unsigned. -/
theorem word_values_agree_highest_bit :
    let t : Target Unit :=
      { read := fun _ _ => pure none
        setVariable := fun _ _ _ => pure ()
        clearVariables := pure ()
        readRegister := fun _ => pure (some 0x8000000000000001)
        writeRegister := fun _ _ => pure false
        bytesUsed := pure (some 0x8000000000000001) }
    let host := Machine.host t fun _ _ => none
    let m : Machine Unit := { target := () }
    let v := Value.int (-9223372036854775807)
    Evaluation.run host none (parse "9223372036854775809") = pure v ∧
      Evaluation.run host none (parse "0x8000000000000001") = pure v ∧
      ((Machine.readRegister t "R0").run m).1 = some v ∧
      ((host.callIntrinsic none .getRegVal [.text "R0"]).run.run m).1 = .ok v ∧
      ElementType.u64.decode .big [0x80, 0, 0, 0, 0, 0, 0, 1] = v ∧
      (host.callIntrinsic none .calcMemUsed []).run.run m = (.ok v, m) ∧
      v.render .unsigned = "9223372036854775809" ∧ v.render .hex = "8000000000000001" ∧
      Literal.decode "0x8000000000000001" = .ok (.int (-9223372036854775807)) := by
  intro t host m v
  obtain ⟨_, hentries, -, hint, hshow⟩ := word_values_agree 0x8000000000000001
  obtain ⟨rfl, -⟩ := hint (by decide)
  have hshown := hshow _ rfl
  have hholds : m.Holds t "R0" 0x8000000000000001 := ⟨rfl, nofun⟩
  have hdigits : ("8000000000000001".toList).map Char.toLower =
      Nat.toDigits 16 (0x8000000000000001 : UInt64).toNat := by
    decide
  exact ⟨hentries.decimal host none, hentries.hexadecimal host none _ hdigits,
    hentries.register t m "R0" hholds,
    hentries.registerCall t _ none m "R0" (by decide) hholds, hentries.memory .big [],
    hentries.statistics host none [] m m m m rfl rfl rfl, hshown.unsigned, hshown.hex,
    hshown.decode_hex⟩

end TargetView
