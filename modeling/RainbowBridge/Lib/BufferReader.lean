import Mathlib.Data.List.Basic

/-! Readers that move an offset over a buffer. Two facts about a reader compose: it
reads a given encoding wherever it lies and refuses it where the buffer ends too
early, or it fails on a given encoding wherever it lies. -/

namespace RainbowBridge.Lib

/-- A reader over tokens `τ` with errors `ε`: from a buffer and an offset to a value
and the next offset. -/
abbrev BufferReader (ε τ α : Type) := ReaderT (List τ) (StateT Nat (Except ε)) α

namespace BufferReader

variable {ε τ α β : Type}

theorem bind_apply (first : BufferReader ε τ α) (next : α → BufferReader ε τ β) (buffer : List τ)
    (offset : Nat) :
    (first >>= next) buffer offset = first buffer offset >>= fun pair => next pair.1 buffer pair.2 :=
  rfl

theorem pure_apply (value : α) (buffer : List τ) (offset : Nat) :
    (pure value : BufferReader ε τ α) buffer offset = .ok (value, offset) :=
  rfl

theorem bind_of_ok {first : BufferReader ε τ α} {next : α → BufferReader ε τ β} {buffer : List τ}
    {offset middle : Nat} {value : α} (here : first buffer offset = .ok (value, middle)) :
    (first >>= next) buffer offset = next value buffer middle := by
  rw [bind_apply, here]
  rfl

theorem bind_of_error {first : BufferReader ε τ α} {next : α → BufferReader ε τ β} {buffer : List τ}
    {offset : Nat} {error : ε} (here : first buffer offset = .error error) :
    (first >>= next) buffer offset = .error error := by
  rw [bind_apply, here]
  rfl

/-- Stop with an error. -/
def fail (error : ε) : BufferReader ε τ α := fun _ _ => .error error

/-- The next `count` tokens. -/
def window (count : Nat) (short : ε) : BufferReader ε τ (List τ) := fun buffer offset =>
  if offset + count ≤ buffer.length then .ok ((buffer.drop offset).take count, offset + count)
  else .error short

/-- Read the same kind of element `count` times. -/
def times (count : Nat) (reader : BufferReader ε τ α) : BufferReader ε τ (List α) :=
  match count with
  | 0 => pure []
  | count + 1 => do
    let head ← reader
    let tail ← times count reader
    return head :: tail

variable {fault : ε → Prop}

/-- A reader reads `encoded` as `value`, wherever it lies, and where only a part of it
is left it fails in the expected way. -/
structure Reads (fault : ε → Prop) (reader : BufferReader ε τ α) (encoded : List τ) (value : α) : Prop where
  whole : ∀ front back,
    reader (front ++ encoded ++ back) front.length = .ok (value, (front ++ encoded).length)
  short : ∀ front part missing, encoded = part ++ missing → missing ≠ [] →
    ∃ error, fault error ∧ reader (front ++ part) front.length = .error error

/-- A reader fails on `encoded`, wherever it lies. -/
def Fails (reader : BufferReader ε τ α) (encoded : List τ) : Prop :=
  ∀ front back, ∃ error, reader (front ++ encoded ++ back) front.length = .error error

theorem Reads.pure (value : α) : Reads fault (Pure.pure value : BufferReader ε τ α) [] value where
  whole := by
    intro front back
    simp [pure_apply]
  short := by
    intro front part missing split nonempty
    exact absurd (List.append_eq_nil_iff.mp split.symm).2 nonempty

theorem Reads.bind {first : BufferReader ε τ α} {next : α → BufferReader ε τ β} {encoded tail : List τ}
    {value : α} {result : β} (here : Reads fault first encoded value)
    (later : Reads fault (next value) tail result) : Reads fault (first >>= next) (encoded ++ tail) result where
  whole := by
    intro front back
    have start := here.whole front (tail ++ back)
    have rest := later.whole (front ++ encoded) back
    simp only [← List.append_assoc] at start rest ⊢
    rw [bind_of_ok start, rest]
  short := by
    intro front part missing split nonempty
    rcases List.append_eq_append_iff.mp split with ⟨inside, rfl, rest⟩ | ⟨outside, rfl, rest⟩
    · have start := here.whole front inside
      obtain ⟨error, expected, failed⟩ := later.short (front ++ encoded) inside missing rest nonempty
      rw [← List.append_assoc]
      exact ⟨error, expected, by rw [bind_of_ok start, failed]⟩
    · by_cases exact : outside = []
      · -- The buffer ends between the two parts.
        subst exact
        have start := here.whole front []
        obtain ⟨error, expected, failed⟩ := later.short (front ++ part) [] missing (by simpa using rest.symm)
          nonempty
        simp only [List.append_nil] at start failed
        exact ⟨error, expected, by rw [bind_of_ok start, failed]⟩
      · obtain ⟨error, expected, failed⟩ := here.short front part outside rfl exact
        exact ⟨error, expected, bind_of_error failed⟩

/-- The final `return` of a reader reads nothing. -/
theorem Reads.map {first : BufferReader ε τ α} {encoded : List τ} {value : α}
    (read : Reads fault first encoded value) (assemble : α → β) :
    Reads fault (first >>= fun value => Pure.pure (assemble value)) encoded (assemble value) := by
  have both : Reads fault (first >>= fun value => Pure.pure (assemble value)) (encoded ++ [])
      (assemble value) := read.bind (.pure (assemble value))
  simpa using both

theorem Reads.window (encoded : List τ) {error : ε} (expected : fault error) :
    Reads fault (BufferReader.window encoded.length error) encoded encoded where
  whole := by
    intro front back
    simp [BufferReader.window]
  short := by
    intro front part missing split nonempty
    have positive := List.length_pos_iff.mpr nonempty
    have length : encoded.length = part.length + missing.length := by rw [split, List.length_append]
    refine ⟨error, expected, if_neg ?_⟩
    rw [List.length_append]
    omega

theorem Fails.fail (error : ε) (encoded : List τ) : Fails (BufferReader.fail error : BufferReader ε τ α) encoded :=
  fun _ _ => ⟨error, rfl⟩

theorem Fails.bind {first : BufferReader ε τ α} {encoded : List τ} (here : Fails first encoded)
    (next : α → BufferReader ε τ β) (tail : List τ) : Fails (first >>= next) (encoded ++ tail) := by
  intro front back
  obtain ⟨error, failed⟩ := here front (tail ++ back)
  simp only [← List.append_assoc] at failed ⊢
  exact ⟨error, bind_of_error failed⟩

theorem Fails.map {first : BufferReader ε τ α} {encoded : List τ} (here : Fails first encoded)
    (next : α → BufferReader ε τ β) : Fails (first >>= next) encoded := by
  have whole := here.bind next []
  rwa [List.append_nil] at whole

theorem Reads.bind_fails {first : BufferReader ε τ α} {next : α → BufferReader ε τ β}
    {encoded tail : List τ} {value : α} (here : Reads fault first encoded value)
    (later : Fails (next value) tail) : Fails (first >>= next) (encoded ++ tail) := by
  intro front back
  have start := here.whole front (tail ++ back)
  obtain ⟨error, failed⟩ := later (front ++ encoded) back
  simp only [← List.append_assoc] at start failed ⊢
  exact ⟨error, by rw [bind_of_ok start, failed]⟩

/-- A reader reads an encoding unless `bad` holds, and fails on it if it does. -/
structure Settles (fault : ε → Prop) (bad : Prop) (reader : BufferReader ε τ α) (encoded : List τ) (value : α) :
    Prop where
  reads : ¬ bad → Reads fault reader encoded value
  fails : bad → Fails reader encoded

/-- Items are read one after the other up to the first bad one. -/
theorem Settles.times {reader : BufferReader ε τ α} {encode : β → List τ} {value : β → α} {bad : β → Prop}
    (items : List β) (each : ∀ item ∈ items, Settles fault (bad item) reader (encode item) (value item)) :
    Settles fault (∃ item ∈ items, bad item) (BufferReader.times items.length reader) (items.flatMap encode)
      (items.map value) := by
  induction items with
  | nil => exact ⟨fun _ => .pure [], fun some => by simp at some⟩
  | cons item items ih =>
    have head := each item (by simp)
    have tail := ih fun other member => each other (by simp [member])
    refine ⟨fun none => ?_, fun some => ?_⟩
    · simp only [List.mem_cons, exists_eq_or_imp, not_or] at none
      exact (head.reads none.1).bind ((tail.reads none.2).map (value item :: ·))
    · by_cases here : bad item
      · exact (head.fails here).bind _ _
      · simp only [List.mem_cons, exists_eq_or_imp, here, false_or] at some
        exact (head.reads here).bind_fails ((tail.fails some).map _)

/-- The same for a loop with an accumulator. -/
theorem Settles.foldlM {step : α → β → BufferReader ε τ α} {encode : β → List τ} {next : α → β → α}
    {bad : β → Prop} (items : List β)
    (each : ∀ item ∈ items, ∀ state, Settles fault (bad item) (step state item) (encode item) (next state item))
    (start : α) :
    Settles fault (∃ item ∈ items, bad item) (items.foldlM step start) (items.flatMap encode)
      (items.foldl next start) := by
  induction items generalizing start with
  | nil => exact ⟨fun _ => .pure start, fun some => by simp at some⟩
  | cons item items ih =>
    have head := each item (by simp) start
    have tail := ih (fun other member => each other (by simp [member])) (next start item)
    rw [List.foldlM_cons, List.flatMap_cons, List.foldl_cons]
    refine ⟨fun none => ?_, fun some => ?_⟩
    · simp only [List.mem_cons, exists_eq_or_imp, not_or] at none
      exact (head.reads none.1).bind (tail.reads none.2)
    · by_cases here : bad item
      · exact (head.fails here).bind _ _
      · simp only [List.mem_cons, exists_eq_or_imp, here, false_or] at some
        exact (head.reads here).bind_fails (tail.fails some)

end BufferReader

end RainbowBridge.Lib
