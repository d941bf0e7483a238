import ClassSort.Candidate
import Mathlib.Data.List.Forall2

/-!
Candidates are placed between two positions if their ranges stand there and no two of them overlap.
What is placed on one side of a position and what is placed on the other are placed together, in
whatever order they are listed.
-/

namespace ClassSort

theorem Span.Disjoint.symm {s t : Span} (h : s.Disjoint t) : t.Disjoint s := Or.symm h

namespace Candidate

/-- No byte belongs to both. -/
def Apart (c d : Candidate) : Prop := c.range.Disjoint d.range

structure Placed (start stop : Nat) (cs : List Candidate) : Prop where
  within : ∀ c ∈ cs, start ≤ c.range.start ∧ c.range.stop ≤ stop
  apart : cs.Pairwise Apart

namespace Placed

variable {a b m a' b' : Nat} {cs ds es : List Candidate}

theorem nil : Placed a b [] := ⟨by simp, .nil⟩

theorem weaken (h : Placed a b cs) (ha : a' ≤ a) (hb : b ≤ b') : Placed a' b' cs := by
  refine ⟨fun c hc => ?_, h.apart⟩
  obtain ⟨hstart, hstop⟩ := h.within c hc
  exact ⟨Nat.le_trans ha hstart, Nat.le_trans hstop hb⟩

theorem perm (h : Placed a b cs) (hperm : cs.Perm ds) : Placed a b ds :=
  ⟨fun c hc => h.within c (hperm.mem_iff.mpr hc),
    (hperm.pairwise_iff fun hcd => hcd.symm).mp h.apart⟩

theorem sublist (h : Placed a b cs) (hsub : ds.Sublist cs) : Placed a b ds :=
  ⟨fun c hc => h.within c (hsub.subset hc), h.apart.sublist hsub⟩

theorem append (h : Placed a m cs) (h' : Placed m b ds) (ha : a ≤ m) (hb : m ≤ b) :
    Placed a b (cs ++ ds) := by
  refine ⟨fun c hc => ?_, List.pairwise_append.mpr ⟨h.apart, h'.apart, fun c hc d hd => ?_⟩⟩
  · rcases List.mem_append.mp hc with hc | hc
    · obtain ⟨hstart, hstop⟩ := h.within c hc
      exact ⟨hstart, Nat.le_trans hstop hb⟩
    · obtain ⟨hstart, hstop⟩ := h'.within c hc
      exact ⟨Nat.le_trans ha hstart, hstop⟩
  · exact .inl (Nat.le_trans (h.within c hc).2 (h'.within d hd).1)

/-- Taken lists and the rest, part by part. -/
theorem zip {ys : List Candidate} (h : Placed a m (cs ++ ds)) (h' : Placed m b (es ++ ys)) (ha : a ≤ m)
    (hb : m ≤ b) : Placed a b ((cs ++ es) ++ (ds ++ ys)) := by
  refine (h.append h' ha hb).perm (List.perm_iff_count.mpr fun c => ?_)
  simp only [List.count_append]
  omega

end Placed

variable {source : String} {c : Candidate}

theorem mem_keep {d : Candidate} (h : d ∈ keep c) : d = c := by
  unfold keep at h
  split at h
  · simp at h
  · simpa using h

theorem keep_placed {a b : Nat} (ha : a ≤ c.range.start) (hb : c.range.stop ≤ b) :
    Placed a b (keep c) := by
  refine ⟨fun d hd => ?_, ?_⟩
  · obtain rfl := mem_keep hd
    exact ⟨ha, hb⟩
  · unfold keep
    split
    · exact .nil
    · exact List.pairwise_singleton _ _

theorem ofText_placed {range : Span} {a b : Nat} (ha : a ≤ range.start) (hb : range.stop ≤ b) :
    Placed a b (ofText source range) := by
  unfold ofText
  split
  · exact keep_placed ha hb
  · exact .nil

theorem ofChunk_placed {chunk : Chunk} {a b : Nat} (ha : a ≤ chunk.span.start)
    (hb : chunk.span.stop ≤ b) : Placed a b (ofChunk source chunk) := by
  unfold ofChunk
  split
  · exact keep_placed ha hb
  · exact .nil

theorem ofLiteral_placed {span : Span} {a b : Nat} (ha : a ≤ span.start) (hb : span.stop ≤ b) :
    Placed a b (ofLiteral source span) := by
  unfold ofLiteral
  split
  · exact ofText_placed (Nat.le_trans ha (Nat.le_succ _)) (Nat.le_trans (Nat.sub_le ..) hb)
  · exact .nil

end Candidate

end ClassSort
