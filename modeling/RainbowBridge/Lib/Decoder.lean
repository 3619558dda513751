import Mathlib.Data.List.Basic

/-! Decoders that consume the front of a token list and may fail. Two facts about
a decoder compose: whatever it accepts is the encoding of what it returns, and it
reads a given encoding back whatever follows. -/

namespace RainbowBridge.Lib

/-! A computation on a state that may fail goes on from where its first step got to. -/

namespace Stateful

variable {σ ε α β : Type} {first : StateT σ (Except ε) α} {rest : α → StateT σ (Except ε) β} {state next : σ}
  {value : α} {error : ε}

theorem bind_of_ok (here : first state = .ok (value, next)) : (first >>= rest) state = rest value next := by
  change (first state >>= fun pair => rest pair.1 pair.2) = _
  rw [here]
  rfl

theorem bind_of_error (here : first state = .error error) : (first >>= rest) state = .error error := by
  change (first state >>= fun pair => rest pair.1 pair.2) = _
  rw [here]
  rfl

theorem map_of_ok (here : first state = .ok (value, next)) (f : α → β) :
    (f <$> first) state = .ok (f value, next) := by
  rw [← bind_pure_comp, bind_of_ok here]
  rfl

theorem map_of_error (here : first state = .error error) (f : α → β) : (f <$> first) state = .error error := by
  rw [← bind_pure_comp, bind_of_error here]

end Stateful

/-- A decoder over tokens `τ` with errors `ε`. -/
abbrev Decoder (ε τ α : Type) := StateT (List τ) (Except ε) α

namespace Decoder

variable {ε τ α β : Type}

theorem bind_eq_ok {first : Decoder ε τ α} {next : α → Decoder ε τ β} {data rest : List τ}
    {result : β} : (first >>= next) data = .ok (result, rest) ↔
      ∃ value middle, first data = .ok (value, middle) ∧ next value middle = .ok (result, rest) := by
  change (first data >>= fun pair => next pair.1 pair.2) = _ ↔ _
  cases first data with
  | error error => simp [bind, Except.bind]
  | ok pair =>
    obtain ⟨value, middle⟩ := pair
    simp [bind, Except.bind]

theorem pure_eq_ok {value result : α} {data rest : List τ} :
    (pure value : Decoder ε τ α) data = .ok (result, rest) ↔ value = result ∧ data = rest := by
  change Except.ok (value, data) = _ ↔ _
  simp

/-- Decode the same kind of element `count` times. -/
def times (count : Nat) (decoder : Decoder ε τ α) : Decoder ε τ (List α) :=
  match count with
  | 0 => pure []
  | count + 1 => do
    let head ← decoder
    let tail ← times count decoder
    return head :: tail

/-- What a decoder consumes is the encoding of what it returns. -/
def Parses (decoder : Decoder ε τ α) (encode : α → List τ) : Prop :=
  ∀ data value rest, decoder data = .ok (value, rest) → data = encode value ++ rest

theorem times_eq_ok {decoder : Decoder ε τ α} {encode : α → List τ} (each : Parses decoder encode)
    {count : Nat} {data rest : List τ} {values : List α}
    (success : Decoder.times count decoder data = .ok (values, rest)) :
    values.length = count ∧ data = values.flatMap encode ++ rest := by
  induction count generalizing data values with
  | zero =>
    obtain ⟨rfl, rfl⟩ := pure_eq_ok.mp success
    exact ⟨rfl, rfl⟩
  | succ count ih =>
    simp only [Decoder.times, bind_eq_ok, pure_eq_ok] at success
    obtain ⟨head, middle, here, tail, left, later, rfl, rfl⟩ := success
    obtain ⟨length, consumed⟩ := ih later
    refine ⟨by simp [length], ?_⟩
    rw [each _ _ _ here, consumed]
    simp

/-- Elements that are each read from an item are read from a list of items. -/
theorem times_items {Item : Type} {decoder : Decoder ε τ α} {encode : Item → List τ} {value : Item → α}
    {good : Item → Prop}
    (each : ∀ data result rest, decoder data = .ok (result, rest) →
      ∃ item, good item ∧ data = encode item ++ rest ∧ result = value item)
    {count : Nat} {data rest : List τ} {results : List α}
    (success : Decoder.times count decoder data = .ok (results, rest)) :
    ∃ items : List Item, items.length = count ∧ (∀ item ∈ items, good item) ∧
      data = items.flatMap encode ++ rest ∧ results = items.map value := by
  induction count generalizing data results with
  | zero =>
    obtain ⟨rfl, rfl⟩ := Decoder.pure_eq_ok.mp success
    exact ⟨[], rfl, by simp, rfl, rfl⟩
  | succ count ih =>
    simp only [Decoder.times, Decoder.bind_eq_ok, Decoder.pure_eq_ok] at success
    obtain ⟨head, middle, here, tail, left, later, rfl, rfl⟩ := success
    obtain ⟨item, first, consumed, rfl⟩ := each _ _ _ here
    obtain ⟨items, length, all, remaining, rfl⟩ := ih later
    refine ⟨item :: items, by simp [length], by simpa using ⟨first, all⟩, ?_, rfl⟩
    rw [consumed, remaining]
    simp

/-- A decoder reads `encoded` as `value`, whatever follows. -/
def Reads (decoder : Decoder ε τ α) (encoded : List τ) (value : α) : Prop :=
  ∀ rest, decoder (encoded ++ rest) = .ok (value, rest)

theorem Reads.pure (value : α) : Reads (Pure.pure value : Decoder ε τ α) [] value :=
  fun _ => rfl

theorem Reads.bind {first : Decoder ε τ α} {next : α → Decoder ε τ β} {encoded tail : List τ}
    {value : α} {result : β} (here : Reads first encoded value) (later : Reads (next value) tail result) :
    Reads (first >>= next) (encoded ++ tail) result := by
  intro rest
  rw [List.append_assoc]
  exact bind_eq_ok.mpr ⟨value, tail ++ rest, here _, later rest⟩

/-- The final `return` of a decoder reads nothing. -/
theorem Reads.map {first : Decoder ε τ α} {encoded : List τ} {value : α} (read : Reads first encoded value)
    (assemble : α → β) :
    Reads (first >>= fun value => Pure.pure (assemble value)) encoded (assemble value) := by
  have both : Reads (first >>= fun value => Pure.pure (assemble value)) (encoded ++ [])
      (assemble value) := read.bind (.pure (assemble value))
  simpa using both

/-- What follows the encoding is left to the next decoder. -/
theorem Reads.run {first : Decoder ε τ α} {encoded : List τ} {value : α} (here : Reads first encoded value)
    (next : α → Decoder ε τ β) (rest : List τ) : (first >>= next) (encoded ++ rest) = next value rest := by
  change (first (encoded ++ rest) >>= fun pair => next pair.1 pair.2) = _
  rw [here rest]
  rfl

/-- Items whose encodings may say more than the values that are read. -/
theorem Reads.times_map {decoder : Decoder ε τ α} {encode : β → List τ} {value : β → α} (items : List β)
    (each : ∀ item ∈ items, Reads decoder (encode item) (value item)) :
    Reads (Decoder.times items.length decoder) (items.flatMap encode) (items.map value) := by
  induction items with
  | nil => exact .pure []
  | cons item items ih =>
    have head : Reads decoder (encode item) (value item) := each item (by simp)
    have tail := ih fun other member => each other (by simp [member])
    have both : Reads (Decoder.times (items.length + 1) decoder)
        (encode item ++ items.flatMap encode) (value item :: items.map value) :=
      head.bind (tail.map (value item :: ·))
    simpa using both

theorem Reads.times {decoder : Decoder ε τ α} {encode : α → List τ} (values : List α)
    (each : ∀ value ∈ values, Reads decoder (encode value) value) :
    Reads (Decoder.times values.length decoder) (values.flatMap encode) values := by
  have whole : Reads (Decoder.times values.length decoder) (values.flatMap encode) (values.map id) :=
    Reads.times_map values each
  rwa [List.map_id] at whole

/-- Two decodings that start with the same consumed tokens agree: the one that
is known to read them determines the other. -/
theorem Reads.unique {decoder : Decoder ε τ α} {encoded rest : List τ} {value other : α}
    {left : List τ} (read : Reads decoder encoded value)
    (success : decoder (encoded ++ rest) = .ok (other, left)) : other = value ∧ left = rest := by
  have same := (read rest).symm.trans success
  simp only [Except.ok.injEq, Prod.mk.injEq] at same
  exact ⟨same.1.symm, same.2.symm⟩

end Decoder

end RainbowBridge.Lib
