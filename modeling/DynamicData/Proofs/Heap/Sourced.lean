import DynamicData.Proofs.Heap.Frame
import DynamicData.Proofs.Heap.Normalised

/-!
# Where the nodes of a program come from

A program has nodes from payloads, from conversions of its own values, from containers and from
copies, and can make any node by hand that is not an unsigned word. `Sourced` describes the
heaps that it brings about and the nodes that it then holds. Every integer among them is kept
in its one normal form, however it was spelled where it came from.
-/

namespace DynamicData.Heap

variable {h : Heap} {held : List Node} {n : Node}

/-- The node is held by the program or stands in a container. -/
def Offers (h : Heap) (held : List Node) (n : Node) : Prop :=
  n ∈ held ∨ h.Stores n

/-- The heaps that a program brings about, and the nodes that it holds. -/
inductive Sourced : Heap → List Node → Prop
  | start : Sourced empty []
  | operated {h : Heap} {held : List Node} {op : Operation} (before : Sourced h held)
      (permitted : h.Permits op) (supplied : ∀ n ∈ h.supplies op, h.Offers held n) :
      Sourced (h.after op) held
  | made {h : Heap} {held : List Node} {n : Node} (before : Sourced h held)
      (known : h.Knows n) (noWord : ∀ u, n ≠ .uint u) : Sourced h (n :: held)
  | taken {h : Heap} {held : List Node} {n : Node} (before : Sourced h held)
      (stored : h.Stores n) : Sourced h (n :: held)
  | converted {h : Heap} {held : List Node} {v : Insertable} (before : Sourced h held)
      (known : h.KnowsValue v) (supplied : ∀ n ∈ v.references, h.Offers held n) :
      Sourced (h.nodeOf v).1 ((h.nodeOf v).2 :: held)
  | parsed {h : Heap} {held : List Node} {payload : Bytes} {d : Document}
      (before : Sourced h held) (read : Json.parse payload = .ok d) :
      Sourced (h.build d).1 ((h.build d).2 :: held)
  | decoded {h : Heap} {held : List Node} {limits : Limits} {payload : Bytes} {d : Document}
      (before : Sourced h held) (read : Document.ofBinary limits payload = .ok d) :
      Sourced (h.build d).1 ((h.build d).2 :: held)
  | copied {h : Heap} {held : List Node} {n : Node} (before : Sourced h held)
      (offered : h.Offers held n) : Sourced (h.deepCopy n).1 ((h.deepCopy n).2 :: held)

theorem Offers.holds {P : Node → Prop} (hheld : ∀ n ∈ held, P n)
    (hstored : ∀ n, h.Stores n → P n) (hn : h.Offers held n) : P n :=
  hn.elim (hheld n) (hstored n)

/-! ## The invariant -/

/-- A program that holds what was built besides what it held before knows all of it. -/
theorem Built.knows_held {ι : Type} {t : Tree ι} {h' : Heap} (hb : h.Built t h' n)
    (hheld : ∀ m ∈ held, h.Knows m) : h'.WellFormed ∧ ∀ m ∈ n :: held, h'.Knows m :=
  ⟨hb.wellFormed,
    List.forall_mem_cons.mpr ⟨hb.knows, fun m hm => hb.grows.knows (hheld m hm)⟩⟩

theorem Normal.build_held {ι : Type} {t : Tree ι} (hn : h.Normal)
    (hheld : ∀ m ∈ held, m.Normal) (ht : t.Normalised) :
    (h.build t).1.Normal ∧ ∀ m ∈ (h.build t).2 :: held, m.Normal := by
  obtain ⟨hheap, hnode⟩ := hn.build ht
  exact ⟨hheap, List.forall_mem_cons.mpr ⟨hnode, hheld⟩⟩

/-- The heap is well formed and knows all nodes that the program holds. -/
theorem Sourced.wellFormed (hs : h.Sourced held) : h.WellFormed ∧ ∀ n ∈ held, h.Knows n := by
  have knowsStored : ∀ {h : Heap}, h.WellFormed → ∀ n, h.Stores n → h.Knows n :=
    fun hw n ⟨s, hn⟩ => hw.closed s n hn
  induction hs with
  | start => exact ⟨wellFormed_empty, fun _ hn => absurd hn List.not_mem_nil⟩
  | operated before permitted supplied ih =>
      have hchanges := ih.1.changesOnly_after permitted
      exact ⟨ih.1.after permitted, fun n hn s hns => hchanges.allocated s (ih.2 n hn s hns)⟩
  | made before known noWord ih => exact ⟨ih.1, List.forall_mem_cons.mpr ⟨known, ih.2⟩⟩
  | taken before stored ih =>
      exact ⟨ih.1, List.forall_mem_cons.mpr ⟨knowsStored ih.1 _ stored, ih.2⟩⟩
  | converted before known supplied ih =>
      have ha := ih.1.nodeOf _ known
      exact ⟨ha.wellFormed, List.forall_mem_cons.mpr
        ⟨ha.knows, fun n hn => ha.grows.knows (ih.2 n hn)⟩⟩
  | parsed before read ih =>
      exact (ih.1.build (Document.Parsed.json read).keysDistinct).knows_held ih.2
  | decoded before read ih =>
      exact (ih.1.build (Document.Parsed.binary read).keysDistinct).knows_held ih.2
  | copied before offered ih =>
      exact (ih.1.built_deepCopy (offered.holds ih.2 (knowsStored ih.1))).knows_held ih.2

/-- All nodes that the program holds or has put into containers are normal. -/
theorem Sourced.normal (hs : h.Sourced held) : h.Normal ∧ ∀ n ∈ held, n.Normal := by
  induction hs with
  | start => exact ⟨normal_empty, fun _ hn => absurd hn List.not_mem_nil⟩
  | operated before permitted supplied ih =>
      exact ⟨ih.1.after fun n hn => (supplied n hn).holds ih.2 ih.1, ih.2⟩
  | made before known noWord ih =>
      exact ⟨ih.1, List.forall_mem_cons.mpr ⟨fun u hu => absurd hu (noWord u), ih.2⟩⟩
  | taken before stored ih => exact ⟨ih.1, List.forall_mem_cons.mpr ⟨ih.1 _ stored, ih.2⟩⟩
  | @converted h held v before known supplied ih =>
      obtain ⟨hheap, hnode⟩ := valueCases_normal.value h v ih.1 fun n hn =>
        (supplied n hn).holds ih.2 ih.1
      exact ⟨hheap, List.forall_mem_cons.mpr ⟨hnode, ih.2⟩⟩
  | parsed before read ih =>
      exact ih.1.build_held ih.2 (Document.Parsed.json read).normalised
  | decoded before read ih =>
      exact ih.1.build_held ih.2 (Document.Parsed.binary read).normalised
  | copied before offered ih =>
      exact ih.1.build_held ih.2 (ih.1.normalised_tree (offered.holds ih.2 ih.1))

/-- Every unsigned word that a program holds or has stored, at any depth, is above all signed
ones, so that integers are equal only if they are one node. All spellings of a number of 64
bits in at most 16 digits are read as one node. A payload in which a reader comes to an
integer of more digits or bits is refused, and in what is read no integer is altered. -/
theorem Sourced.integers_normal (hs : h.Sourced held) :
    (h.WellFormed ∧ ∀ n, h.Offers held n → h.Knows n ∧ n.Normal ∧ (h.tree n).Normalised) ∧
    (∀ m n, h.Offers held m → h.Offers held n → m.kind = .integer → n.kind = .integer →
      (h.same m n = true ↔ m = n)) ∧
    (∀ i : Int, -2 ^ 63 ≤ i → i < 2 ^ 64 →
      ∃ n : Node, n.Normal ∧ n.numeric? = some (.integer i) ∧
        ∀ limits word digits, Term.SpellsInteger word digits i → digits ≤ 16 →
          word.length < limits.maxPayloadBytes →
            ∃ d, Document.ofBinary limits (131 :: word) = .ok d ∧ h.build d = (h, n)) ∧
    (∀ (i : Int) (digits : Nat), 16 < digits ∨ i < -2 ^ 63 ∨ 2 ^ 64 ≤ i →
      ∀ limits word body, Term.SpellsInteger word digits i →
        Term.Meets word limits.maxNestingDepth body → body.length < limits.maxPayloadBytes →
          ∃ message, Document.ofBinary limits (131 :: body) = .error (.binary message)) ∧
    ∀ limits payload d, Document.ofBinary limits payload = .ok d →
      ∃ body t d', payload = 131 :: body ∧ Term.Represents limits.maxNestingDepth body t ∧
        Term.Carries t d' ∧ d = d'.merged := by
  obtain ⟨hw, hknows⟩ := hs.wellFormed
  obtain ⟨hheap, hheld⟩ := hs.normal
  refine ⟨⟨hw, fun n hn => ?_⟩, fun m n hm hn => ?_, fun i hlow hhigh => ?_, ?_, ?_⟩
  · have hnode := hn.holds hheld hheap
    exact ⟨hn.holds hknows fun n ⟨s, hmem⟩ => hw.closed s n hmem, hnode,
      hheap.normalised_tree hnode⟩
  · exact same_iff_eq_of_normal (hm.holds hheld hheap) (hn.holds hheld hheap)
  · obtain ⟨n, hn, hi⟩ := exists_normal hlow hhigh
    obtain ⟨d, hd, hbuild⟩ := exists_form_of_normal hn hi
    exact ⟨n, hn, hi, fun limits word digits hspells hfew hbytes =>
      ⟨d, Document.ofBinary_integer hspells hfew hd hbytes, hbuild h⟩⟩
  · exact fun i digits hout limits word body hspells hmeets hbytes =>
      Document.ofBinary_out_of_range hspells hmeets hout hbytes
  · exact fun limits payload d hd => Document.exists_carries_of_ofBinary hd

/-- A word that a payload spells with a zero too many, stored beside its own conversion and a
small one; zero as a byte and as a negative zero; and a list with an integer of 65 bits. -/
theorem integers_normal_mixed :
    let u : Node := .uint 0x8000000000000000
    let h := empty.after (.newArray [.node u, .unsigned 0x8000000000000000, .unsigned 7])
    h.Sourced [u] ∧ h.items ⟨0⟩ = [u, u, .int 7] ∧ (h.same u (.int 7) = true ↔ u = .int 7) ∧
      (∃ n d e, Document.ofBinary .standard [131, 97, 0] = .ok d ∧ h.build d = (h, n) ∧
        Document.ofBinary .standard [131, 110, 2, 1, 0, 0] = .ok e ∧ h.build e = (h, n)) ∧
      ∃ message, Document.ofBinary .standard
        [131, 108, 0, 0, 0, 1, 110, 9, 0, 0, 0, 0, 0, 0, 0, 0, 0, 1, 106] =
          .error (.binary message) := by
  intro u h
  have hdecoded : Document.ofBinary .standard [131, 110, 9, 0, 0, 0, 0, 0, 0, 0, 0, 128, 0] =
      .ok (.uint 0x8000000000000000) := by rfl
  have hu : empty.Sourced [u] := .decoded .start hdecoded
  have hs : h.Sourced [u] := by
    refine .operated hu (by decide) fun n hn => ?_
    rw [List.mem_singleton.mp hn]
    exact .inl List.mem_cons_self
  obtain ⟨-, hsame, hone, hrefused, -⟩ := hs.integers_normal
  have hseven : h.same u (.int 7) = true ↔ u = .int 7 :=
    hsame u (.int 7) (.inl List.mem_cons_self) (.inr ⟨.array ⟨0⟩, by decide⟩) rfl rfl
  -- zero, as a byte and with two digits after the sign of a negative number
  have hbyte : Term.SpellsInteger [97, 0] 0 0 := .byte 0
  have hbig : Term.SpellsInteger [110, 2, 1, 0, 0] 2 0 :=
    @Term.SpellsInteger.big .smallBig [2] 1 [0, 0] (.inl rfl) ⟨rfl, rfl⟩
  obtain ⟨n, -, -, hread⟩ := hone 0 (by decide) (by decide)
  obtain ⟨d, hd, hdn⟩ := hread .standard _ _ hbyte (by decide) (by decide)
  obtain ⟨e, he, hen⟩ := hread .standard _ _ hbig (by decide) (by decide)
  -- the only item of a list, with nine digits
  have hwide : Term.SpellsInteger [110, 9, 0, 0, 0, 0, 0, 0, 0, 0, 0, 1] 9 (2 ^ 64) :=
    @Term.SpellsInteger.big .smallBig [9] 0 [0, 0, 0, 0, 0, 0, 0, 0, 1] (.inl rfl) ⟨rfl, rfl⟩
  have hmeets : Term.Meets [110, 9, 0, 0, 0, 0, 0, 0, 0, 0, 0, 1]
      (Limits.standard.maxNestingDepth - 1 + 1)
      (108 :: ([0, 0, 0, 1] ++ ([] ++ ([110, 9, 0, 0, 0, 0, 0, 0, 0, 0, 0, 1] ++ [106])))) :=
    .item ⟨rfl, rfl⟩ .nil Nat.zero_lt_one (.here [106])
  exact ⟨hs, rfl, hseven, ⟨n, d, e, hd, hdn, he, hen⟩,
    hrefused _ _ (by decide) .standard _ _ hwide hmeets (by decide)⟩

end DynamicData.Heap
