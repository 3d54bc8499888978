import DynamicData.Bytes.Parser

/-!
# What a parser can yield and what it reads

`Yields p P` says that every result of `p` satisfies `P`. `Reads p G` says that `p`
is exact for a grammar `G`: it succeeds with `a` if and only if the input begins
with a word that `G` assigns to `a`, and then it takes that word and no more. Both
are proved of a parser from its parts.
-/

namespace DynamicData

variable {ε α β : Type}

theorem except_bind_eq_ok {x : Except ε α} {f : α → Except ε β} {b : β} :
    x >>= f = .ok b ↔ ∃ a, x = .ok a ∧ f a = .ok b := by
  cases x with
  | error e =>
      constructor
      · intro h
        cases h
      · rintro ⟨a, ha, _⟩
        cases ha
  | ok a =>
      constructor
      · exact fun h => ⟨a, rfl, h⟩
      · rintro ⟨a', ha, hf⟩
        cases ha
        exact hf

theorem except_bind_eq_error {x : Except ε α} {f : α → Except ε β} {e : ε} :
    x >>= f = .error e ↔ x = .error e ∨ ∃ a, x = .ok a ∧ f a = .error e := by
  cases x with
  | error e' =>
      constructor
      · intro h
        cases h
        exact .inl rfl
      · rintro (h | ⟨a, ha, -⟩)
        · cases h
          rfl
        · cases ha
  | ok a =>
      constructor
      · exact fun h => .inr ⟨a, rfl, h⟩
      · rintro (h | ⟨a', ha, hf⟩)
        · cases h
        · cases ha
          exact hf

namespace Parser

/-! ## Steps of a parser -/

@[simp] theorem rest_apply (bytes : Bytes) :
    (rest : Parser ε Bytes) bytes = .ok (bytes, bytes) := rfl

@[simp] theorem set_apply (bytes rest : Bytes) :
    (set rest : Parser ε PUnit) bytes = .ok (⟨⟩, rest) := rfl

@[simp] theorem modify_apply (f : Bytes → Bytes) (bytes : Bytes) :
    (modify f : Parser ε PUnit) bytes = .ok (⟨⟩, f bytes) := rfl

/-- A parser that succeeds hands its result and what is left to the next. -/
theorem bind_of_ok {p : Parser ε α} {f : α → Parser ε β} {bytes rest : Bytes} {a : α}
    (hp : p bytes = .ok (a, rest)) : (p >>= f) bytes = f a rest := by
  rw [bind_apply, hp]

/-- A sequence succeeds only through a success of its first part. -/
theorem bind_eq_ok {p : Parser ε α} {f : α → Parser ε β} {bytes rest : Bytes} {b : β} :
    (p >>= f) bytes = .ok (b, rest) ↔
      ∃ a mid, p bytes = .ok (a, mid) ∧ f a mid = .ok (b, rest) := by
  rw [bind_apply]
  constructor
  · intro h
    cases hp : p bytes with
    | error e => rw [hp] at h; cases h
    | ok r => rw [hp] at h; exact ⟨r.1, r.2, rfl, h⟩
  · rintro ⟨a, mid, hp, hf⟩
    rw [hp]
    exact hf

/-! ## Results -/

/-- Every result of the parser satisfies `P`. -/
def Yields (p : Parser ε α) (P : α → Prop) : Prop :=
  ∀ bytes a rest, p bytes = .ok (a, rest) → P a

theorem yields_true (p : Parser ε α) : Yields p fun _ => True :=
  fun _ _ _ _ => trivial

theorem yields_pure {P : α → Prop} {a : α} (ha : P a) : Yields (pure a : Parser ε α) P := by
  rintro bytes b rest h
  cases h
  exact ha

theorem yields_of_error {P : α → Prop} {p : Parser ε α}
    (hp : ∀ bytes, ∃ e, p bytes = .error e) : Yields p P := by
  intro bytes a rest h
  obtain ⟨e, he⟩ := hp bytes
  rw [he] at h
  cases h

theorem yields_bind {P : β → Prop} {Q : α → Prop} {p : Parser ε α} {f : α → Parser ε β}
    (hp : Yields p Q) (hf : ∀ a, Q a → Yields (f a) P) : Yields (p >>= f) P := by
  intro bytes b rest h
  obtain ⟨a, mid, ha, hb⟩ := bind_eq_ok.mp h
  exact hf a (hp _ _ _ ha) _ _ _ hb

/-- A sequence whose first result does not matter. -/
theorem yields_andThen {P : β → Prop} {p : Parser ε α} {f : α → Parser ε β}
    (hf : ∀ a, Yields (f a) P) : Yields (p >>= f) P :=
  yields_bind (yields_true p) fun a _ => hf a

/-! ## Exact readers -/

/-- The parser takes from the front exactly the words of the grammar `G`, and yields
what `G` assigns to them. -/
def Reads (p : Parser ε α) (G : Bytes → α → Prop) : Prop :=
  ∀ bytes a rest, p bytes = .ok (a, rest) ↔ ∃ word, bytes = word ++ rest ∧ G word a

theorem Reads.apply {p : Parser ε α} {G : Bytes → α → Prop} (hp : Reads p G) {word : Bytes}
    {a : α} (hw : G word a) (rest : Bytes) : p (word ++ rest) = .ok (a, rest) :=
  (hp _ _ _).mpr ⟨word, rfl, hw⟩

/-- Of two words that begin the same bytes neither is longer, and they have one result. -/
theorem Reads.append_inj {p : Parser ε α} {G : Bytes → α → Prop} (hp : Reads p G)
    {word word' rest rest' : Bytes} {a a' : α} (h : G word a) (h' : G word' a')
    (heq : word ++ rest = word' ++ rest') : word = word' ∧ rest = rest' ∧ a = a' := by
  have hread := hp.apply h rest
  rw [heq, hp.apply h' rest'] at hread
  cases hread
  exact ⟨List.append_cancel_right heq, rfl, rfl⟩

theorem Reads.congr {p : Parser ε α} {G G' : Bytes → α → Prop} (hp : Reads p G)
    (hG : ∀ word a, G word a ↔ G' word a) : Reads p G' := by
  intro bytes a rest
  rw [hp bytes a rest]
  exact exists_congr fun word => and_congr_right fun _ => hG word a

theorem reads_pure (a : α) :
    Reads (pure a : Parser ε α) fun word b => word = [] ∧ b = a := by
  intro bytes b rest
  constructor
  · intro h
    cases h
    exact ⟨[], rfl, rfl, rfl⟩
  · rintro ⟨word, rfl, rfl, rfl⟩
    rfl

theorem reads_throw (e : ε) : Reads (throw e : Parser ε α) fun _ _ => False := by
  intro bytes b rest
  constructor
  · intro h
    cases h
  · rintro ⟨_, _, hf⟩
    exact hf.elim

/-- A sequence reads the words of its parts one after the other. -/
theorem Reads.bind {p : Parser ε α} {f : α → Parser ε β} {G : Bytes → α → Prop}
    {H : α → Bytes → β → Prop} (hp : Reads p G) (hf : ∀ a, Reads (f a) (H a)) :
    Reads (p >>= f) fun word b => ∃ w₁ w₂ a, word = w₁ ++ w₂ ∧ G w₁ a ∧ H a w₂ b := by
  intro bytes b rest
  rw [bind_eq_ok]
  constructor
  · rintro ⟨a, mid, ha, hb⟩
    obtain ⟨w₁, rfl, h₁⟩ := (hp _ _ _).mp ha
    obtain ⟨w₂, rfl, h₂⟩ := (hf a _ _ _).mp hb
    exact ⟨w₁ ++ w₂, (List.append_assoc ..).symm, w₁, w₂, a, rfl, h₁, h₂⟩
  · rintro ⟨word, rfl, w₁, w₂, a, rfl, h₁, h₂⟩
    refine ⟨a, w₂ ++ rest, ?_, (hf a).apply h₂ rest⟩
    rw [List.append_assoc]
    exact hp.apply h₁ _

/-- A parser with a new name for each result. -/
theorem Reads.map {p : Parser ε α} {G : Bytes → α → Prop} (hp : Reads p G) (f : α → β) :
    Reads (p >>= fun a => pure (f a)) fun word b => ∃ a, G word a ∧ b = f a := by
  apply (hp.bind fun a => reads_pure (f a)).congr
  intro word b
  constructor
  · rintro ⟨w₁, w₂, a, rfl, ha, rfl, rfl⟩
    exact ⟨a, by rwa [List.append_nil], rfl⟩
  · rintro ⟨a, ha, rfl⟩
    exact ⟨word, [], a, (List.append_nil word).symm, ha, rfl, rfl⟩

/-- The words of a list of results, one after the other. -/
inductive Sequence (G : Bytes → α → Prop) : Bytes → List α → Prop
  | nil : Sequence G [] []
  | cons {word words : Bytes} {a : α} {as : List α} (head : G word a)
      (tail : Sequence G words as) : Sequence G (word ++ words) (a :: as)

theorem Sequence.mul_length_le {G : Bytes → α → Prop} {k : Nat}
    (hlong : ∀ word a, G word a → k ≤ word.length) {word : Bytes} {as : List α}
    (h : Sequence G word as) : k * as.length ≤ word.length := by
  induction h with
  | nil => exact Nat.le_refl 0
  | cons head tail ih =>
      have := hlong _ _ head
      rw [List.length_append, List.length_cons, Nat.mul_succ]
      omega

/-- Where fewer words than there are have been passed, another one is next. -/
theorem Reads.exists_next {p : Parser ε α} {G : Bytes → α → Prop} (hp : Reads p G)
    {before body rest tail : Bytes} {as bs : List α} (hbefore : Sequence G before as)
    (hbody : Sequence G body bs) (hmore : as.length < bs.length)
    (heq : before ++ rest = body ++ tail) :
    ∃ b ∈ bs, ∃ word tail', G word b ∧ rest = word ++ tail' := by
  induction hbefore generalizing body bs with
  | nil =>
      cases hbody with
      | nil => cases hmore
      | @cons word words b bs head more =>
          exact ⟨b, List.mem_cons_self, word, words ++ tail, head, by simpa using heq⟩
  | cons head tail ih =>
      cases hbody with
      | nil => cases hmore
      | cons head' more =>
          rw [List.append_assoc, List.append_assoc] at heq
          obtain ⟨-, hrest, -⟩ := hp.append_inj head head' heq
          obtain ⟨b, hb, hnext⟩ := ih more (Nat.lt_of_succ_lt_succ hmore) hrest
          exact ⟨b, List.mem_cons_of_mem _ hb, hnext⟩

/-- Reading a part a number of times reads that many words. -/
theorem Reads.repeatInto {p : Parser ε α} {G : Bytes → α → Prop} (hp : Reads p G)
    (count : Nat) (done : List α) :
    Reads (repeatInto p count done) fun word as =>
      ∃ new, as = done.reverse ++ new ∧ new.length = count ∧ Sequence G word new := by
  induction count generalizing done with
  | zero =>
      apply (reads_pure done.reverse).congr
      intro word as
      constructor
      · rintro ⟨rfl, rfl⟩
        exact ⟨[], (List.append_nil _).symm, rfl, .nil⟩
      · rintro ⟨new, rfl, hlen, hseq⟩
        rw [List.length_eq_zero_iff] at hlen
        subst hlen
        cases hseq
        exact ⟨rfl, List.append_nil _⟩
  | succ count ih =>
      apply (hp.bind fun a => ih (a :: done)).congr
      intro word as
      constructor
      · rintro ⟨w₁, w₂, a, rfl, ha, new, rfl, rfl, hseq⟩
        exact ⟨a :: new, by simp, rfl, .cons ha hseq⟩
      · rintro ⟨new, rfl, hlen, hseq⟩
        cases hseq with
        | nil => cases hlen
        | @cons w₁ w₂ a new ha hseq =>
            exact ⟨w₁, w₂, a, rfl, ha, new, by simp, Nat.succ.inj hlen, hseq⟩

theorem Reads.times {p : Parser ε α} {G : Bytes → α → Prop} (hp : Reads p G) (count : Nat) :
    Reads (p.times count) fun word as => as.length = count ∧ Sequence G word as := by
  apply (hp.repeatInto count []).congr
  intro word as
  simp

theorem Reads.pair {p : Parser ε α} {q : Parser ε β} {G : Bytes → α → Prop}
    {H : Bytes → β → Prop} (hp : Reads p G) (hq : Reads q H) :
    Reads (p.pair q) fun word r => ∃ w₁ w₂, word = w₁ ++ w₂ ∧ G w₁ r.1 ∧ H w₂ r.2 := by
  apply (hp.bind fun a => hq.map fun b => (a, b)).congr
  intro word r
  constructor
  · rintro ⟨w₁, w₂, a, rfl, ha, b, hb, rfl⟩
    exact ⟨w₁, w₂, rfl, ha, hb⟩
  · rintro ⟨w₁, w₂, rfl, ha, hb⟩
    exact ⟨w₁, w₂, r.1, rfl, ha, r.2, hb, rfl⟩

end Parser
end DynamicData
