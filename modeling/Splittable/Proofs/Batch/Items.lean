import Splittable.Batch

/-!
# The work items of a batch

The items are the pieces of the elements, one element after the other, each with the position of its
element.

* `itemsFrom_cons`    : the items begin with the pieces of the first element;
* `mem_itemsFrom`     : every item is a piece of the element at its position;
* `filter_itemsFrom`  : the items at the position of an element are its pieces, in their order;
* `sorted_itemsFrom`  : the items stand in the order of the elements;
* `flatMap_itemsFrom` : what is read off the pieces of each element is read off all items.
-/

namespace Splittable.Batch

variable {Element Output : Type} {f : Transform Element Output} {settings : Settings}

/-- The items begin with the pieces of the first element, and go on with the items of the others. -/
theorem itemsFrom_cons {e : Element} {elements : List Element} {index : Nat}
    {items : List WorkItem} (h : itemsFrom f settings index (e :: elements) = .ok items) :
    ∃ whole rest, f.initialSpan e = .ok whole ∧
      itemsFrom f settings (index + 1) elements = .ok rest ∧
      items = (f.divide e whole settings.initialSplits.toNat).map
        (fun span => ⟨index, span, f.weigh e span⟩) ++ rest := by
  simp only [itemsFrom, itemsOf] at h
  cases hwhole : f.initialSpan e with
  | error bounds =>
    simp only [hwhole] at h
    cases h
  | ok whole =>
    simp only [hwhole] at h
    cases hrest : itemsFrom f settings (index + 1) elements with
    | error bounds =>
      simp only [hrest] at h
      cases h
    | ok rest =>
      simp only [hrest] at h
      cases h
      exact ⟨whole, rest, rfl, rfl, rfl⟩

theorem exists_itemsFrom {elements : List Element}
    (h : ∀ e ∈ elements, ∃ whole, f.initialSpan e = .ok whole) (index : Nat) :
    ∃ items, itemsFrom f settings index elements = .ok items := by
  induction elements generalizing index with
  | nil => exact ⟨[], rfl⟩
  | cons e elements ih =>
    obtain ⟨whole, hwhole⟩ := h e List.mem_cons_self
    obtain ⟨rest, hrest⟩ := ih (fun e he => h e (List.mem_cons_of_mem _ he)) (index + 1)
    simp only [itemsFrom, itemsOf, hwhole, hrest]
    exact ⟨_, rfl⟩

/-- **Every item is a piece of the element at its position.** -/
theorem mem_itemsFrom {elements : List Element} {index : Nat} {items : List WorkItem}
    (h : itemsFrom f settings index elements = .ok items) {item : WorkItem} (hitem : item ∈ items) :
    ∃ k e whole, item.element = index + k ∧ elements[k]? = some e ∧
      f.initialSpan e = .ok whole ∧
      item.span ∈ f.divide e whole settings.initialSplits.toNat := by
  induction elements generalizing index items with
  | nil =>
    cases h
    cases hitem
  | cons e elements ih =>
    obtain ⟨whole, rest, hwhole, hrest, rfl⟩ := itemsFrom_cons h
    rcases List.mem_append.1 hitem with hitem | hitem
    · obtain ⟨span, hspan, rfl⟩ := List.mem_map.1 hitem
      exact ⟨0, e, whole, rfl, rfl, hwhole, hspan⟩
    · obtain ⟨k, e', whole', helement, hk, hwhole', hspan⟩ := ih hrest hitem
      exact ⟨k + 1, e', whole', by omega, hk, hwhole', hspan⟩

/-- **The items at the position of an element are its pieces**, in their order. -/
theorem filter_itemsFrom {elements : List Element} {index : Nat} {items : List WorkItem}
    (h : itemsFrom f settings index elements = .ok items) {k : Nat} {e : Element}
    (hk : elements[k]? = some e) :
    ∃ whole, f.initialSpan e = .ok whole ∧
      (items.filter (·.element = index + k)).map (·.span) =
        f.divide e whole settings.initialSplits.toNat := by
  induction elements generalizing index items k with
  | nil => cases hk
  | cons e' elements ih =>
    obtain ⟨whole, rest, hwhole, hrest, rfl⟩ := itemsFrom_cons h
    rw [List.filter_append, List.filter_map]
    cases k with
    | zero =>
      cases hk
      have hnone : rest.filter (·.element = index + 0) = [] := by
        refine List.filter_eq_nil_iff.2 fun item hitem => ?_
        obtain ⟨k, _, _, helement, _⟩ := mem_itemsFrom hrest hitem
        simp only [decide_eq_true_eq]
        omega
      refine ⟨whole, hwhole, ?_⟩
      rw [hnone]
      simp [Function.comp_def]
    | succ k =>
      obtain ⟨whole', hwhole', hfilter⟩ := ih hrest hk
      refine ⟨whole', hwhole', ?_⟩
      rw [show index + (k + 1) = index + 1 + k by omega, List.map_append, hfilter]
      have hne : ¬ index = index + 1 + k := by omega
      simp [Function.comp_def, hne]

/-- **The items stand in the order of the elements.** -/
theorem sorted_itemsFrom {elements : List Element} {index : Nat} {items : List WorkItem}
    (h : itemsFrom f settings index elements = .ok items) :
    items.Pairwise (·.element ≤ ·.element) := by
  induction elements generalizing index items with
  | nil =>
    cases h
    exact .nil
  | cons e elements ih =>
    obtain ⟨whole, rest, _, hrest, rfl⟩ := itemsFrom_cons h
    refine List.pairwise_append.2 ⟨?_, ih hrest, fun item hitem other hother => ?_⟩
    · exact List.pairwise_map.2 (List.pairwise_of_forall fun _ _ => Nat.le_refl index)
    · obtain ⟨_, _, rfl⟩ := List.mem_map.1 hitem
      obtain ⟨k, _, _, helement, _⟩ := mem_itemsFrom hrest hother
      dsimp only
      omega

/-- What is read off the pieces of each element is read off all items. -/
theorem flatMap_itemsFrom {α : Type} {elements : List Element} {index : Nat}
    {items : List WorkItem} (h : itemsFrom f settings index elements = .ok items)
    (g : Span → List α) (read : Element → List α)
    (hread : ∀ e ∈ elements, ∀ whole, f.initialSpan e = .ok whole →
      (f.divide e whole settings.initialSplits.toNat).flatMap g = read e) :
    items.flatMap (fun item => g item.span) = elements.flatMap read := by
  induction elements generalizing index items with
  | nil =>
    cases h
    rfl
  | cons e elements ih =>
    obtain ⟨whole, rest, hwhole, hrest, rfl⟩ := itemsFrom_cons h
    rw [List.flatMap_append, List.flatMap_map, List.flatMap_cons,
      hread e List.mem_cons_self whole hwhole,
      ih hrest fun e he => hread e (List.mem_cons_of_mem _ he)]

theorem mem_workItems {elements : List Element} {items : List WorkItem}
    (h : workItems f settings elements = .ok items) {item : WorkItem} (hitem : item ∈ items) :
    ∃ e, elements[item.element]? = some e := by
  obtain ⟨k, e, _, helement, hk, _⟩ := mem_itemsFrom h hitem
  rw [Nat.zero_add] at helement
  exact ⟨e, by rw [helement]; exact hk⟩

end Splittable.Batch
