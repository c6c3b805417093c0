import StoryAtlas.Proofs.Explore.Recall
import StoryAtlas.Proofs.Hub.Order
import StoryAtlas.Proofs.Story.Fight

/-!
# What the keys of places and menus tell apart

Menus and places are remembered under keys, and a key is glued together from texts: a menu from the
clean text and the sorted labels, a place from the labels and the place above, the number of the
choice, and the labels and the location below. The glue is not kept out of the texts, so different
menus and different places may have the same key, and then one is taken for the other.

A reference always leads to what was met under the same key. Where the labels and the locations are
free of the glue, a key gives back its parts, and the reference leads to the same menu or the same
place.
-/

namespace StoryAtlas

/-! ### Texts that were glued together -/

namespace Text

variable {before after other rest : List Char} {c : Char}

/-- The last occurrence of a character cuts a text in one way. -/
theorem append_cons_inj_last (hafter : c ∉ after) (hrest : c ∉ rest)
    (h : before ++ c :: after = other ++ c :: rest) : before = other ∧ after = rest := by
  have hreverse := congrArg List.reverse h
  simp only [List.reverse_append, List.reverse_cons, List.append_assoc, List.singleton_append]
    at hreverse
  obtain ⟨hback, hfront⟩ := append_cons_inj (by simpa using hafter) (by simpa using hrest) hreverse
  exact ⟨List.reverse_injective hfront, List.reverse_injective hback⟩

theorem eq_nil_of_pair_append {more : List Char} (hafter : ¬[c] <+: after)
    (hpair : ¬[c, c] <:+: after) (h : c :: c :: after = more ++ c :: c :: rest) :
    more = [] ∧ after = rest := by
  cases more with
  | nil => simpa using h
  | cons first more =>
      rw [List.cons_append, List.cons.injEq] at h
      obtain ⟨rfl, h⟩ := h
      cases more with
      | nil =>
          rw [List.nil_append, List.cons.injEq] at h
          exact absurd ⟨rest, h.2.symm⟩ hafter
      | cons second more =>
          rw [List.cons_append, List.cons.injEq] at h
          exact absurd ⟨more, rest, by rw [h.2, List.append_assoc]; rfl⟩ hpair

/-- A doubled character cuts a text in one way if it does not stand behind the cut, nor alone at its
start. -/
theorem append_pair_inj (hafter : ¬[c] <+: after) (hrest : ¬[c] <+: rest)
    (hpair : ¬[c, c] <:+: after) (hpair' : ¬[c, c] <:+: rest)
    (h : before ++ c :: c :: after = other ++ c :: c :: rest) : before = other ∧ after = rest := by
  rcases List.append_eq_append_iff.1 h with ⟨more, rfl, hmore⟩ | ⟨more, rfl, hmore⟩
  · obtain ⟨rfl, rfl⟩ := eq_nil_of_pair_append hafter hpair hmore
    exact ⟨(List.append_nil before).symm, rfl⟩
  · obtain ⟨rfl, rfl⟩ := eq_nil_of_pair_append hrest hpair' hmore
    exact ⟨List.append_nil other, rfl⟩

/-- What joined pieces start with is the separator, or the start of a piece. -/
theorem prefix_of_joinWith {separator : Char} {pieces : List (List Char)}
    (h : [c] <+: joinWith [separator] pieces) :
    c = separator ∨ ∃ piece ∈ pieces, [c] <+: piece := by
  cases pieces with
  | nil => simp [joinWith] at h
  | cons piece pieces =>
      cases piece with
      | cons first piece =>
          refine .inr ⟨_, List.mem_cons_self, ?_⟩
          by_cases hne : pieces = []
          · rw [hne] at h
            exact h
          · rw [joinWith_cons hne, List.cons_append, List.cons_prefix_cons] at h
            exact List.cons_prefix_cons.2 ⟨h.1, List.nil_prefix⟩
      | nil =>
          by_cases hne : pieces = []
          · rw [hne] at h
            simp [joinWith] at h
          · rw [joinWith_cons hne, List.nil_append, List.singleton_append,
              List.cons_prefix_cons] at h
            exact .inl h.1

end Text

namespace Explore

open Text

variable {setting : Setting} {labels others : List String}

theorem toList_sortedLabels (labels : List String) :
    (Scene.sortedLabels labels).toList =
      joinWith ['|'] ((Hub.sortTexts labels).map String.toList) := by
  rw [Scene.sortedLabels, join, String.toList_ofList]
  rfl

theorem mem_sortTexts {label : String} : label ∈ Hub.sortTexts labels ↔ label ∈ labels :=
  List.mem_mergeSort

theorem sortTexts_eq_nil : Hub.sortTexts labels = [] ↔ labels = [] := by
  rw [← List.length_eq_zero_iff, Hub.sortTexts, List.length_mergeSort, List.length_eq_zero_iff]

/-- A sorted list of labels is read off its key, if no label has the separator. -/
theorem sortedLabels_inj (hlabels : ∀ label ∈ labels, '|' ∉ label.toList)
    (hothers : ∀ label ∈ others, '|' ∉ label.toList) (hempty : labels = [] ↔ others = [])
    (h : (Scene.sortedLabels labels).toList = (Scene.sortedLabels others).toList) :
    Hub.sortTexts labels = Hub.sortTexts others := by
  by_cases hnil : labels = []
  · rw [hnil, hempty.1 hnil]
  have hnil' : others ≠ [] := fun heq => hnil (hempty.2 heq)
  have hread : ∀ texts : List String, texts ≠ [] → (∀ label ∈ texts, '|' ∉ label.toList) →
      splitAtChar '|' (Scene.sortedLabels texts).toList =
        (Hub.sortTexts texts).map String.toList := by
    intro texts hne hbars
    rw [toList_sortedLabels]
    refine splitAtChar_joinWith (by simpa [sortTexts_eq_nil] using hne) fun piece hpiece => ?_
    obtain ⟨label, hlabel, rfl⟩ := List.mem_map.1 hpiece
    exact hbars label (mem_sortTexts.1 hlabel)
  have hpieces := hread labels hnil hlabels
  rw [h, hread others hnil' hothers] at hpieces
  exact (List.map_injective_iff.2 fun _ _ => String.toList_inj.1) hpieces.symm

theorem notMem_sortedLabels {c : Char} (hc : c ≠ '|') (h : ∀ label ∈ labels, c ∉ label.toList) :
    c ∉ (Scene.sortedLabels labels).toList := by
  rw [toList_sortedLabels]
  intro hmem
  rcases mem_joinWith hmem with hbar | ⟨piece, hpiece, hmem⟩
  · exact hc (List.mem_singleton.1 hbar)
  · obtain ⟨label, hlabel, rfl⟩ := List.mem_map.1 hpiece
    exact h label (mem_sortTexts.1 hlabel) hmem

/-! ### The keys of menus -/

/-- No label has a bar or a doubled colon, or starts with a colon. -/
def Unmixed (labels : List String) : Prop :=
  ∀ label ∈ labels, '|' ∉ label.toList ∧ ¬[':'] <+: label.toList ∧ ¬[':', ':'] <:+: label.toList

theorem Unmixed.not_prefix (h : Unmixed labels) :
    ¬[':'] <+: (Scene.sortedLabels labels).toList := by
  rw [toList_sortedLabels]
  intro hprefix
  obtain hbar | ⟨piece, hpiece, hstart⟩ := prefix_of_joinWith hprefix
  · exact absurd hbar (by decide)
  · obtain ⟨label, hlabel, rfl⟩ := List.mem_map.1 hpiece
    exact (h label (mem_sortTexts.1 hlabel)).2.1 hstart

theorem Unmixed.not_infix (h : Unmixed labels) :
    ¬[':', ':'] <:+: (Scene.sortedLabels labels).toList := by
  rw [toList_sortedLabels]
  intro hinfix
  obtain ⟨piece, hpiece, hwithin⟩ := infix_of_joinWith (by decide) (by decide) hinfix
  obtain ⟨label, hlabel, rfl⟩ := List.mem_map.1 hpiece
  exact (h label (mem_sortTexts.1 hlabel)).2.2 hwithin

theorem menu_inj {clean clean' : String} (hlabels : Unmixed labels) (hothers : Unmixed others)
    (hempty : labels = [] ↔ others = [])
    (h : clean ++ "::" ++ Scene.sortedLabels labels = clean' ++ "::" ++ Scene.sortedLabels others) :
    clean = clean' ∧ Hub.sortTexts labels = Hub.sortTexts others := by
  have hchars : clean.toList ++ ':' :: ':' :: (Scene.sortedLabels labels).toList =
      clean'.toList ++ ':' :: ':' :: (Scene.sortedLabels others).toList := by
    simpa [String.toList_append] using congrArg String.toList h
  obtain ⟨hclean, hsorted⟩ := append_pair_inj hlabels.not_prefix hothers.not_prefix
    hlabels.not_infix hothers.not_infix hchars
  exact ⟨String.toList_inj.1 hclean, sortedLabels_inj (fun label hlabel => (hlabels label hlabel).1)
    (fun label hlabel => (hothers label hlabel).1) hempty hsorted⟩

theorem signature_inj {stop target : Stop} {key : String} (htarget : Unmixed target.scene.labels)
    (hstop : Unmixed stop.scene.labels) (hchoices : target.scene.choices ≠ [])
    (hchoices' : stop.scene.choices ≠ []) (h : target.signature setting = some key)
    (h' : stop.signature setting = some key) :
    target.scene.clean = stop.scene.clean ∧
      Hub.sortTexts target.scene.labels = Hub.sortTexts stop.scene.labels := by
  have hread : ∀ met : Stop, met.signature setting = some key →
      met.scene.clean ++ "::" ++ Scene.sortedLabels met.scene.labels = key := by
    intro met hmet
    unfold Stop.signature Scene.signature at hmet
    split at hmet
    · split at hmet
      · exact Option.some.inj hmet
      · cases hmet
    · cases hmet
  have hempty : target.scene.labels = [] ↔ stop.scene.labels = [] := by
    simp [Scene.labels, hchoices, hchoices']
  exact menu_inj htarget hstop hempty ((hread target h).trans (hread stop h').symm)

/-! ### The keys of places -/

/-- The parts of a key of a place: the labels and the place above, the number of the choice, and the
labels and the place below. -/
structure Trail where
  above : List Char
  origin : List Char
  number : Nat
  below : List Char
  place : List Char

namespace Trail

def way (trail : Trail) : List Char :=
  trail.origin ++ '_' :: 'c' :: (toString trail.number).toList ++ '_' :: trail.below

def written (trail : Trail) : List Char :=
  trail.above ++ '@' :: (trail.way ++ '@' :: trail.place)

structure Clear (trail : Trail) : Prop where
  above : '@' ∉ trail.above
  origin : '@' ∉ trail.origin
  below : '@' ∉ trail.below ∧ '_' ∉ trail.below

theorem notMem_toString {number : Nat} {c : Char} (hc : c.isDigit = false) :
    c ∉ (toString number).toList := by
  intro hmem
  rw [show (toString number).toList = Nat.toDigits 10 number from Nat.toList_repr] at hmem
  rw [Nat.isDigit_of_mem_toDigits (by decide) (by decide) hmem] at hc
  cases hc

theorem toString_inj {number other : Nat}
    (h : (toString number).toList = (toString other).toList) : number = other := by
  have hdigits : Nat.toDigits 10 number = Nat.toDigits 10 other :=
    Nat.toList_repr.symm.trans (h.trans Nat.toList_repr)
  calc
    number = Nat.ofDigitChars 10 (Nat.toDigits 10 number) 0 :=
      (Nat.ofDigitChars_toDigits (by decide) (by decide)).symm
    _ = Nat.ofDigitChars 10 (Nat.toDigits 10 other) 0 := by rw [hdigits]
    _ = other := Nat.ofDigitChars_toDigits (by decide) (by decide)

variable {trail other : Trail}

theorem Clear.notMem_way (h : trail.Clear) : '@' ∉ trail.way := by
  have hnumber : '@' ∉ (toString trail.number).toList := notMem_toString (by decide)
  simp only [way, List.append_assoc, List.cons_append, List.mem_append, List.mem_cons, not_or]
  exact ⟨h.origin, by decide, by decide, hnumber, by decide, h.below.1⟩

theorem written_inj (h : trail.Clear) (ho : other.Clear) (heq : trail.written = other.written) :
    trail = other := by
  obtain ⟨habove, hrest⟩ := append_cons_inj h.above ho.above heq
  obtain ⟨hway, hplace⟩ := append_cons_inj h.notMem_way ho.notMem_way hrest
  obtain ⟨hfront, hbelow⟩ := append_cons_inj_last h.below.2 ho.below.2 hway
  have hdigits : ∀ number : Nat, '_' ∉ 'c' :: (toString number).toList := fun number hmem =>
    (List.mem_cons.1 hmem).elim (by decide) (notMem_toString (by decide))
  obtain ⟨horigin, hnumber⟩ := append_cons_inj_last (hdigits _) (hdigits _) hfront
  have hsame : trail.number = other.number := toString_inj (List.cons.inj hnumber).2
  cases trail
  cases other
  simp_all

end Trail

def placeOf (clean location : String) : String :=
  if location.isEmpty then "text:" ++ clean else location

/-- A location that does not look like a text is read off the key. -/
theorem placeOf_inj {clean clean' location location' : String}
    (hlocation : ¬"text:".toList <+: location.toList)
    (hlocation' : ¬"text:".toList <+: location'.toList)
    (h : placeOf clean location = placeOf clean' location') : location = location' := by
  unfold placeOf at h
  split at h
  · next hempty =>
    split at h
    · next hempty' => rw [String.isEmpty_iff.1 hempty, String.isEmpty_iff.1 hempty']
    · exact absurd ⟨clean.toList, by rw [← h, String.toList_append]⟩ hlocation'
  · split at h
    · exact absurd ⟨clean'.toList, by rw [h, String.toList_append]⟩ hlocation
    · exact h

namespace Stop

variable {stop upper lower : Stop} {number : Nat}

theorem Looked.keys (h : stop.Looked setting) :
    ∃ location, stop.world.play.location setting.script = .ok location ∧
      stop.scene.stateKey =
        Scene.keyOf stop.scene.labels (placeOf stop.scene.clean location) ∧
      stop.scene.stateHash = stop.visit.edge ++ "_" ++ stop.scene.stateKey := by
  obtain ⟨stretch, labels, location, -, hlocation, hscene⟩ := h.scene_eq
  refine ⟨location, hlocation, ?_, ?_⟩
  all_goals
    rw [hscene]
    rfl

/-- No label is empty or has the glue of a key, locations do not look like texts, and no place that
is left by a choice has an at sign. -/
structure Legible (setting : Setting) (stop : Stop) : Prop where
  labels : ∀ label ∈ stop.scene.labels,
    label ≠ "" ∧ '|' ∉ label.toList ∧ '@' ∉ label.toList ∧ '_' ∉ label.toList
  location : ∀ location, stop.world.play.location setting.script = .ok location →
    ¬"text:".toList <+: location.toList
  place : stop.scene.choices ≠ [] → ∀ location,
    stop.world.play.location setting.script = .ok location →
      '@' ∉ (placeOf stop.scene.clean location).toList

/-- Both stops stand at the same location with the same choices. -/
structure SameState (setting : Setting) (stop other : Stop) : Prop where
  location : stop.world.play.location setting.script =
    other.world.play.location setting.script
  labels : Hub.sortTexts stop.scene.labels = Hub.sortTexts other.scene.labels

theorem labels_eq_nil_iff (h : stop.Legible setting) :
    (Scene.sortedLabels stop.scene.labels).toList = [] ↔ stop.scene.labels = [] := by
  rw [toList_sortedLabels]
  constructor
  · intro hnil
    have hpieces := joinWith_eq_nil (fun piece hpiece => ?_) hnil
    · exact sortTexts_eq_nil.1 (List.map_eq_nil_iff.1 hpieces)
    · obtain ⟨label, hlabel, rfl⟩ := List.mem_map.1 hpiece
      simpa using (h.labels label (mem_sortTexts.1 hlabel)).1
  · intro hnil
    rw [sortTexts_eq_nil.2 hnil]
    rfl

theorem labels_inj {other : Stop} (h : stop.Legible setting) (ho : other.Legible setting)
    (heq : (Scene.sortedLabels stop.scene.labels).toList =
      (Scene.sortedLabels other.scene.labels).toList) :
    Hub.sortTexts stop.scene.labels = Hub.sortTexts other.scene.labels :=
  sortedLabels_inj (fun label hlabel => (h.labels label hlabel).2.1)
    (fun label hlabel => (ho.labels label hlabel).2.1)
    (by rw [← labels_eq_nil_iff h, heq, labels_eq_nil_iff ho]) heq

/-- The key of a stop that lies behind a choice, in its parts. -/
theorem Follows.trail (h : upper.Follows setting number lower) (hopens : upper.Opens setting)
    (hupper : upper.Looked setting) (hlower : lower.Looked setting)
    (hlegible : upper.Legible setting) (hlegible' : lower.Legible setting) :
    ∃ location location', upper.world.play.location setting.script = .ok location ∧
      lower.world.play.location setting.script = .ok location' ∧
      ∃ trail : Trail, trail.Clear ∧ lower.scene.stateHash.toList = trail.written ∧
        trail.above = (Scene.sortedLabels upper.scene.labels).toList ∧
        trail.origin = (placeOf upper.scene.clean location).toList ∧ trail.number = number ∧
        trail.below = (Scene.sortedLabels lower.scene.labels).toList ∧
        trail.place = (placeOf lower.scene.clean location').toList := by
  obtain ⟨location, hlocation, hkey, -⟩ := hupper.keys
  obtain ⟨location', hlocation', hkey', hhash⟩ := hlower.keys
  refine ⟨location, location', hlocation, hlocation',
    ⟨(Scene.sortedLabels upper.scene.labels).toList, (placeOf upper.scene.clean location).toList,
      number, (Scene.sortedLabels lower.scene.labels).toList,
      (placeOf lower.scene.clean location').toList⟩,
    ⟨?_, ?_, ?_, ?_⟩, ?_, rfl, rfl, rfl, rfl, rfl⟩
  · exact notMem_sortedLabels (by decide) fun label hlabel => (hlegible.labels label hlabel).2.2.1
  · exact hlegible.place hopens.choices location hlocation
  · exact notMem_sortedLabels (by decide) fun label hlabel => (hlegible'.labels label hlabel).2.2.1
  · exact notMem_sortedLabels (by decide) fun label hlabel => (hlegible'.labels label hlabel).2.2.2
  · have hedge : lower.visit.edge = upper.scene.stateKey ++ "_c" ++ toString number := by
      rw [h.visit]
      rfl
    rw [hhash, hedge, hkey, hkey']
    simp [Scene.keyOf, Trail.written, Trail.way, String.toList_append]

/-- A stop behind a choice of legible stops has another key than the first stop. -/
theorem Follows.stateHash_ne {first : Stop} (h : upper.Follows setting number lower)
    (hopens : upper.Opens setting) (hupper : upper.Looked setting) (hlower : lower.Looked setting)
    (hlegible : upper.Legible setting) (hlegible' : lower.Legible setting)
    (hfirst : first.Looked setting) (hedge : first.visit.edge = "") :
    first.scene.stateHash ≠ lower.scene.stateHash := by
  obtain ⟨-, -, -, -, trail, -, hwritten, habove, -⟩ :=
    h.trail hopens hupper hlower hlegible hlegible'
  obtain ⟨-, -, -, hhash⟩ := hfirst.keys
  intro heq
  have hchars : '_' :: first.scene.stateKey.toList = trail.written := by
    rw [← hwritten, ← heq, hhash, hedge]
    simp [String.toList_append]
  have hscore : '_' ∉ trail.above := habove ▸ notMem_sortedLabels (by decide) fun label hlabel =>
    (hlegible.labels label hlabel).2.2.2
  cases hcase : trail.above with
  | nil =>
      rw [habove, labels_eq_nil_iff hlegible, Scene.labels, List.map_eq_nil_iff] at hcase
      exact hopens.choices hcase
  | cons c above =>
      rw [Trail.written, hcase, List.cons_append, List.cons.injEq] at hchars
      exact hscore (hcase ▸ hchars.1 ▸ List.mem_cons_self)

/-- Stops with one key lie behind the same choice of the same state, and are in the same state. -/
theorem Follows.sameState {other target : Stop} {number' : Nat}
    (h : upper.Follows setting number stop) (h' : other.Follows setting number' target)
    (hopens : upper.Opens setting) (hopens' : other.Opens setting)
    (hlooked : ∀ met ∈ [upper, stop, other, target], met.Looked setting)
    (hlegible : ∀ met ∈ [upper, stop, other, target], met.Legible setting)
    (heq : target.scene.stateHash = stop.scene.stateHash) :
    number' = number ∧ other.SameState setting upper ∧ target.SameState setting stop := by
  simp only [List.forall_mem_cons] at hlooked hlegible
  obtain ⟨lookedUpper, lookedStop, lookedOther, lookedTarget, -⟩ := hlooked
  obtain ⟨legibleUpper, legibleStop, legibleOther, legibleTarget, -⟩ := hlegible
  obtain ⟨location, location', hlocation, hlocation', trail, hclear, hwritten, habove, horigin,
    hnumber, hbelow, hplace⟩ := h.trail hopens lookedUpper lookedStop legibleUpper legibleStop
  obtain ⟨found, found', hfound, hfound', again, hclear', hwritten', habove', horigin', hnumber',
    hbelow', hplace'⟩ := h'.trail hopens' lookedOther lookedTarget legibleOther legibleTarget
  obtain rfl : again = trail :=
    Trail.written_inj hclear' hclear (by rw [← hwritten', ← hwritten, heq])
  obtain rfl : found = location :=
    placeOf_inj (legibleOther.location _ hfound) (legibleUpper.location _ hlocation)
      (String.toList_inj.1 (horigin'.symm.trans horigin))
  obtain rfl : found' = location' :=
    placeOf_inj (legibleTarget.location _ hfound') (legibleStop.location _ hlocation')
      (String.toList_inj.1 (hplace'.symm.trans hplace))
  refine ⟨hnumber'.symm.trans hnumber, ⟨hfound.trans hlocation.symm, ?_⟩,
    ⟨hfound'.trans hlocation'.symm, ?_⟩⟩
  · exact labels_inj legibleOther legibleUpper (habove'.symm.trans habove)
  · exact labels_inj legibleTarget legibleStop (hbelow'.symm.trans hbelow)

/-- The menu of the stop is known, and nothing else about it. -/
structure Converges (setting : Setting) (stop : Stop) (ref : Int) : Prop where
  choices : stop.scene.choices ≠ []
  noLoop : stop.scene.textLoop setting.limits stop.visit = none
  noState : stop.scene.repeatedState setting.limits stop.world.ledger = none
  budget : stop.world.ledger.nodeTotal < setting.limits.budget stop.visit.depth
  known : knownMenu setting stop.scene stop.world.ledger = some ref

/-- The place of the stop is known, and its text is new on the way down. -/
structure Recurs (setting : Setting) (stop : Stop) (ref : Int) : Prop where
  noLoop : stop.scene.textLoop setting.limits stop.visit = none
  known : stop.scene.repeatedState setting.limits stop.world.ledger = some ref

theorem Recurs.get?_states {ref : Int} (h : stop.Recurs setting ref) :
    Register.get? stop.scene.stateHash stop.world.ledger.states = some ref := by
  have hknown := h.known
  unfold Scene.repeatedState at hknown
  split at hknown
  · exact hknown
  · cases hknown

instance (setting : Setting) (stop : Stop) (ref : Int) : Decidable (stop.Converges setting ref) :=
  decidable_of_iff (stop.scene.choices.isEmpty = false ∧
      stop.scene.textLoop setting.limits stop.visit = none ∧
      stop.scene.repeatedState setting.limits stop.world.ledger = none ∧
      stop.world.ledger.nodeTotal < setting.limits.budget stop.visit.depth ∧
      knownMenu setting stop.scene stop.world.ledger = some ref)
    ⟨fun ⟨choices, noLoop, noState, budget, known⟩ =>
        ⟨by simpa using choices, noLoop, noState, budget, known⟩,
      fun ⟨choices, noLoop, noState, budget, known⟩ =>
        ⟨by simpa using choices, noLoop, noState, budget, known⟩⟩

instance (setting : Setting) (stop : Stop) (ref : Int) : Decidable (stop.Recurs setting ref) :=
  decidable_of_iff (stop.scene.textLoop setting.limits stop.visit = none ∧
      stop.scene.repeatedState setting.limits stop.world.ledger = some ref)
    ⟨fun ⟨noLoop, known⟩ => ⟨noLoop, known⟩, fun ⟨noLoop, known⟩ => ⟨noLoop, known⟩⟩

/-- A stop whose place is known becomes a reference to the node there. -/
theorem Recurs.settleScene_eq {ref : Int} {next : Visitor} (h : stop.Recurs setting ref) :
    (settleScene setting next stop.visit stop.scene stop.world).1 =
      .ok (some (.node (stop.scene.refBeat stop.id ref) [])) := by
  rw [Explore.settleScene_eq, h.noLoop, h.known]
  rfl

/-- A stop whose menu is known becomes a reference to the node with the menu. -/
theorem Converges.settleScene_eq {ref : Int} {next : Visitor} (h : stop.Converges setting ref) :
    (settleScene setting next stop.visit stop.scene stop.world).1 =
      .ok (some (.node (stop.scene.refBeat stop.id ref) [])) := by
  have hmenu : knownMenu setting stop.scene (registerHub setting stop.scene stop.id
      (remembered setting stop.scene stop.world).ledger) = some ref :=
    (knownMenu_opened setting stop.scene stop.world).trans h.known
  rw [settleScene_new h.choices h.noLoop h.noState h.budget, openScene_known hmenu]

end Stop

/-- In an exploration the node of every stop that converges or recurs refers to the node of a stop
with the same key. If the labels are unmixed, a stop that converges has the same text and menu as
the one it is referred to. If all stops are legible, a stop that recurs is in the same state as the
one it is referred to, and both lie behind the choice with one number of stops in the same state. -/
theorem references_recall (setting : Setting) :
    (issued (entries (chronicle setting))).Nodup ∧
    (∀ stop outcome ref, .settled stop outcome ∈ entries (chronicle setting) →
      stop.Converges setting ref →
      outcome = .ok (some (.node (stop.scene.refBeat stop.id ref) [])) ∧
      ∃ target node, .settled target (.ok (some node)) ∈ entries (chronicle setting) ∧
        node.value.id = ref ∧ target.Opens setting ∧
        target.signature setting = stop.signature setting ∧
        (Unmixed target.scene.labels → Unmixed stop.scene.labels →
          target.scene.clean = stop.scene.clean ∧
            Hub.sortTexts target.scene.labels = Hub.sortTexts stop.scene.labels)) ∧
    (∀ stop outcome ref, .settled stop outcome ∈ entries (chronicle setting) →
      stop.Recurs setting ref →
      outcome = .ok (some (.node (stop.scene.refBeat stop.id ref) [])) ∧
      ∃ target node, .settled target (.ok (some node)) ∈ entries (chronicle setting) ∧
        node.value.id = ref ∧ target.scene.stateHash = stop.scene.stateHash ∧
        ((∀ met ∈ stops (chronicle setting), met.Legible setting) →
          target.SameState setting stop ∧
          ∃ upper ∈ stops (chronicle setting), ∃ other ∈ stops (chronicle setting), ∃ number,
            upper.Follows setting number stop ∧ other.Follows setting number target ∧
              other.SameState setting upper)) := by
  refine ⟨(kept_run (Issues.tracing setting)).distinct, ?_, ?_⟩
  · intro stop outcome ref hentry hconverges
    obtain ⟨below, hsettled⟩ := settled_of_mem hentry
    refine ⟨hsettled.outcome_eq.trans hconverges.settleScene_eq, ?_⟩
    obtain ⟨key, hkey, hget⟩ := Option.bind_eq_some_iff.1 hconverges.known
    obtain ⟨target, node, htarget, hid, hopens, hsignature⟩ :=
      menuMet_of_get? (mem_stops_of_mem hentry) hget
    refine ⟨target, node, htarget, hid, hopens, hsignature.trans hkey.symm, fun ht hs => ?_⟩
    exact signature_inj ht hs hopens.choices hconverges.choices hsignature hkey
  · intro stop outcome ref hentry hrecurs
    obtain ⟨below, hsettled⟩ := settled_of_mem hentry
    have hstop := mem_stops_of_mem hentry
    refine ⟨hsettled.outcome_eq.trans hrecurs.settleScene_eq, ?_⟩
    have hget := hrecurs.get?_states
    obtain ⟨target, node, htarget, hid, hhash⟩ := placeMet_of_get? hstop hget
    refine ⟨target, node, htarget, hid, hhash, fun hlegible => ?_⟩
    have hmet := mem_stops_of_mem htarget
    -- nothing is remembered yet at the first stop
    obtain ⟨-, hbooks⟩ | ⟨upper, hupper, number, hopens, hfollows⟩ := first_or_follows hstop
    · rw [hbooks.states] at hget
      cases hget
    obtain ⟨hvisit, -⟩ | ⟨other, hother, number', hopens', hfollows'⟩ := first_or_follows hmet
    · refine absurd hhash (hfollows.stateHash_ne hopens (looked_of_mem_stops hupper)
        (looked_of_mem_stops hstop) (hlegible _ hupper) (hlegible _ hstop)
        (looked_of_mem_stops hmet) ?_)
      rw [hvisit]
    have hall : ∀ met ∈ [upper, stop, other, target], met ∈ stops (chronicle setting) := by
      simp [hupper, hstop, hother, hmet]
    obtain ⟨rfl, habove, hbelow⟩ := hfollows.sameState hfollows' hopens hopens'
      (fun met hmem => looked_of_mem_stops (hall met hmem))
      (fun met hmem => hlegible met (hall met hmem)) hhash
    exact ⟨hbelow, upper, hupper, other, hother, number', hfollows, hfollows', habove⟩

/-- Two valleys whose texts and answers are cut differently and come to one key. -/
def echo : Setting where
  unit := "Echo"
  script := {
    passages := [
      ("start", {
        lines := [some "Two valleys."]
        choices := [⟨"North", "north", false⟩, ⟨"South", "south", false⟩] }),
      ("north", { lines := [some "An echo"], choices := [⟨"hello::there", "hill", false⟩] }),
      ("south", { lines := [some "An echo::hello"], choices := [⟨"there", "lake", false⟩] }),
      ("hill", { lines := [some "A hill."] }),
      ("lake", { lines := [some "A lake."] })] }
  limits := { detectRepeatedStates := false, convergenceChoices := 1 }
  convergence := some {}

/-- The southern valley becomes a reference to the northern one, whose text and menu are others. -/
theorem echo_converges :
    ∃ stop ∈ stops (chronicle echo), ∃ target ∈ stops (chronicle echo),
      stop.Converges echo target.id ∧ target.Opens echo ∧
        target.scene.clean = "An echo" ∧ stop.scene.clean = "An echo::hello" ∧
        target.scene.labels = ["hello::there"] ∧ stop.scene.labels = ["there"] := by
  decide +kernel

def circle : Setting where
  unit := "Circle"
  script := {
    passages := [
      ("start", { lines := [some "A road."], choices := [⟨"On", "gate", false⟩] }),
      ("gate", { lines := [some "A gate."], choices := [⟨"Back", "start", false⟩] })] }
  limits := { detectTextLoops := false }

theorem legible_circle : ∀ met ∈ stops (chronicle circle), met.Legible circle := by
  have hlabels : ∀ met ∈ stops (chronicle circle), ∀ label ∈ met.scene.labels,
      label ≠ "" ∧ '|' ∉ label.toList ∧ '@' ∉ label.toList ∧ '_' ∉ label.toList := by
    decide +kernel
  have hlocations : ∀ met ∈ stops (chronicle circle),
      (met.world.play.location circle.script).toOption ∈ [some "start", some "gate"] := by
    decide +kernel
  intro met hmet
  have hlocation : ∀ location, met.world.play.location circle.script = .ok location →
      location ∈ ["start", "gate"] := by
    intro location hlocation
    have hfound := hlocations met hmet
    rw [hlocation] at hfound
    simpa [Except.toOption] using hfound
  refine ⟨hlabels met hmet, fun location h => ?_, fun _ location h => ?_⟩
  · have hnone : ∀ known ∈ ["start", "gate"], ¬"text:".toList <+: known.toList := by decide
    exact hnone location (hlocation location h)
  · rcases List.mem_pair.1 (hlocation location h) with rfl | rfl
    · simp [placeOf]
    · simp [placeOf]

/-- A valley is referred to the one with its key, and a road that comes again to the same road. -/
theorem references_recall_echo :
    (∃ stop ∈ stops (chronicle echo), stop.Converges echo 1 ∧
      ∃ target node, .settled target (.ok (some node)) ∈ entries (chronicle echo) ∧
        node.value.id = 1 ∧ target.Opens echo ∧ target.signature echo = stop.signature echo) ∧
    ∃ stop ∈ stops (chronicle circle), stop.Recurs circle 1 ∧
      ∃ target node, .settled target (.ok (some node)) ∈ entries (chronicle circle) ∧
        node.value.id = 1 ∧ target.SameState circle stop := by
  have hconverges : ∃ stop ∈ stops (chronicle echo), stop.Converges echo 1 := by decide +kernel
  have hrecurs : ∃ stop ∈ stops (chronicle circle), stop.Recurs circle 1 := by decide +kernel
  obtain ⟨valley, hvalley, hknown⟩ := hconverges
  obtain ⟨road, hroad, hagain⟩ := hrecurs
  obtain ⟨outcome, hentry⟩ := settled_of_mem_stops hvalley
  obtain ⟨outcome', hentry'⟩ := settled_of_mem_stops hroad
  obtain ⟨-, target, node, htarget, hid, hopens, hsignature, -⟩ :=
    (references_recall echo).2.1 valley outcome 1 hentry hknown
  obtain ⟨-, target', node', htarget', hid', -, hsame⟩ :=
    (references_recall circle).2.2 road outcome' 1 hentry' hagain
  exact ⟨⟨valley, hvalley, hknown, target, node, htarget, hid, hopens, hsignature⟩,
    road, hroad, hagain, target', node', htarget', hid', (hsame legible_circle).1⟩

end Explore

end StoryAtlas
