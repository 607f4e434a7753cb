import SchemaCompiler.Proofs.Hierarchy.Sums

/-!
# Promoted definitions are referred to once

The one reference to a promoted definition is the one that its branch was drawn from.  Whatever
else the tally visits does not refer to it: no other definition, no other part of its base and no
other branch of its base.
-/

namespace SchemaCompiler.Hierarchy.Analysis

variable {document : Document} (run : Analysis document)

variable {pending : Pending} (hpending : pending ∈ run.pending) {name : String}
  (hpromotable : isPromotable run.scope pending name = true)

include hpending hpromotable

theorem notMem_of_other_keyword {key : String} {value : Json}
    (hvalue : Entries.get? pending.definition.node key = some value)
    (hkey : key ∉ ["oneOf", "anyOf", "$ref"]) : name ∉ Tally.ofJson value := by
  intro hmem
  obtain ⟨draw⟩ := run.draw_of_mem_pending hpending
  obtain ⟨candidate, hcandidate, href⟩ := run.exists_candidate_of_isPromotable hpromotable
  obtain ⟨items, hitems, hjson⟩ := Option.bind_eq_some_iff.mp draw.items_eq
  have hne : key ≠ draw.keyword := by
    rintro rfl
    exact hkey (List.mem_append_left ["$ref"] draw.keyword_mem)
  have hcounted : key ≠ "$ref" := by
    rintro rfl
    exact hkey (by decide)
  have hnode := Tally.count_add_count_le_ofMembers name hvalue hitems hcounted
    (draw.keyword_ne (by decide)) hne
  have hdrawn : name ∈ Tally.ofJson items := by
    cases items with
    | array values =>
        obtain rfl : values = draw.items := Option.some.inj hjson
        rw [Tally.ofJson]
        exact Tally.mem_ofItems_of_item (draw.candidate?_item hcandidate).1
          (draw.mem_ofMembers hcandidate href)
    | _ => cases hjson
  have htotal := Tally.count_le_count_ofDocument name (run.mem_sorted_of_mem_pending hpending)
  have hfirst : 0 < (Tally.ofJson value).count name := List.count_pos_iff.mpr hmem
  have hsecond : 0 < (Tally.ofJson items).count name := List.count_pos_iff.mpr hdrawn
  have hcount := run.count_eq_one_of_isPromotable hpromotable
  omega

theorem notMem_of_other_candidate {other : Candidate} (hother : other ∈ pending.candidates)
    (hne : other.refName ≠ some name) : name ∉ Tally.ofMembers other.item := by
  intro hmem
  obtain ⟨draw⟩ := run.draw_of_mem_pending hpending
  obtain ⟨candidate, hcandidate, href⟩ := run.exists_candidate_of_isPromotable hpromotable
  obtain ⟨hitem, hdrawn⟩ := draw.candidate?_item hcandidate
  obtain ⟨hitem', hdrawn'⟩ := draw.candidate?_item hother
  -- an item gives one candidate only
  have hitems : candidate.item ≠ other.item := by
    intro heq
    rw [heq, hdrawn'] at hdrawn
    exact hne ((congrArg Candidate.refName (Option.some.inj hdrawn)).trans href)
  have htwice := Tally.count_add_count_le_of_array? name draw.items_eq
    (draw.keyword_ne (by decide)) hitem hitem' hitems
  have htotal := Tally.count_le_count_ofDocument name (run.mem_sorted_of_mem_pending hpending)
  have hfirst : 0 < (Tally.ofMembers candidate.item).count name :=
    List.count_pos_iff.mpr (draw.mem_ofMembers hcandidate href)
  have hsecond : 0 < (Tally.ofMembers other.item).count name := List.count_pos_iff.mpr hmem
  have hcount := run.count_eq_one_of_isPromotable hpromotable
  omega

end SchemaCompiler.Hierarchy.Analysis
