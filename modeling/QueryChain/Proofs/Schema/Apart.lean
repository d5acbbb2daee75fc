import QueryChain.Proofs.Schema.Valid
import QueryChain.Schema.School

/-!
# Joins that look alike

Two relations make joins that look alike if they lead to tables of one name and equate columns of
the same names. In most schemas no two do (`Schema.JoinsApart`), which can be checked on the list of
all relations.
-/

namespace QueryChain

theorem Member.same_iff {a b : Member} :
    a.same b ↔ a.declaringType = b.declaringType ∧ a.name = b.name := by
  simp [Member.same]

theorem Member.same_symm {a b : Member} (h : a.same b) : b.same a := by
  rw [same_iff] at h ⊢
  exact ⟨h.1.symm, h.2.symm⟩

theorem Member.same_trans {a b c : Member} (h : a.same b) (h' : b.same c) : a.same c := by
  rw [same_iff] at h h' ⊢
  exact ⟨h.1.trans h'.1, h.2.trans h'.2⟩

/-- Two joins lead to tables of one name and equate columns of the same names. -/
def Link.LooksLike (a b : Link) : Prop :=
  a.targetTable = b.targetTable ∧ a.leftColumn = b.leftColumn ∧ a.rightColumn = b.rightColumn

instance (a b : Link) : Decidable (a.LooksLike b) :=
  inferInstanceAs (Decidable (_ ∧ _ ∧ _))

namespace Schema

variable {s : Schema} {m r : Member} {link : Link}

/-- No two relations make joins that look alike. -/
def JoinsApart (s : Schema) : Prop :=
  ∀ r r' link link', s.link? r = some link → s.link? r' = some link' → link.LooksLike link' →
    r.same r'

theorem link?_of_same (h : m.same r) : s.link? m = s.link? r := by
  obtain ⟨htype, hname⟩ := Member.same_iff.1 h
  simp only [link?, htype, hname]

/-- All relations with the joins that they make. -/
def links (s : Schema) : List (Member × Link) :=
  s.entities.flatMap fun (type, entity) =>
    entity.relations.filterMap fun (name, _) =>
      let m : Member := { declaringType := type, name, type := "" }
      (s.link? m).map (m, ·)

theorem link?_of_mem_links (h : (m, link) ∈ s.links) : s.link? m = some link := by
  simp only [links, List.mem_flatMap, List.mem_filterMap, Option.map_eq_some_iff] at h
  obtain ⟨_, -, _, -, _, hlink, heq⟩ := h
  cases heq
  exact hlink

theorem exists_mem_links (h : s.link? m = some link) : ∃ r, m.same r ∧ (r, link) ∈ s.links := by
  obtain ⟨entity, relation, _, hentity, hrelation, -⟩ := link?_eq_some h
  let r : Member := { m with type := "" }
  have hsame : m.same r := Member.same_iff.2 ⟨rfl, rfl⟩
  refine ⟨r, hsame, List.mem_flatMap.2 ⟨_, NameMap.mem_of_get? hentity, ?_⟩⟩
  refine List.mem_filterMap.2 ⟨_, NameMap.mem_of_get? hrelation, ?_⟩
  rw [link?_of_same hsame] at h
  exact Option.map_eq_some_iff.2 ⟨link, h, rfl⟩

instance (s : Schema) : Decidable s.JoinsApart :=
  decidable_of_iff (∀ a ∈ s.links, ∀ b ∈ s.links, a.2.LooksLike b.2 → a.1.same b.1) <| by
    constructor
    · intro h r r' link link' hlink hlink' hlooks
      obtain ⟨a, hr, ha⟩ := exists_mem_links hlink
      obtain ⟨b, hr', hb⟩ := exists_mem_links hlink'
      exact Member.same_trans (Member.same_trans hr (h _ ha _ hb hlooks)) (Member.same_symm hr')
    · intro h a ha b hb hlooks
      exact h _ _ _ _ (link?_of_mem_links ha) (link?_of_mem_links hb) hlooks

example : Schema.school.JoinsApart := by decide

end Schema

end QueryChain
