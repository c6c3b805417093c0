import StoryAtlas.Names.Fetch
import StoryAtlas.Proofs.Story.Analysis

/-!
# When the names can be looked up

A lookup has three ends. It finds the names, or it fails under the URL of a catalogue, or a value in
an answer is one that nothing on the way contains. The last takes an answer that was a success and
that has a number beyond the digit limit, cards that are nothing with members, or a card with a name
and an infinite id.
-/

namespace StoryAtlas

namespace NameTable

/-- A card with a name and an id has an id that is not infinite. -/
def Legible (card : Json) : Prop :=
  ∀ id, given "id" card = some id → (given "name" card).isSome → ¬ id.IsInfinite

/-- The cards of a catalogue can be listed, and each of them is legible. -/
def Listed (catalogue : Json) : Prop :=
  ∃ cards, Json.membersOrNone (catalogue.get? "cards") = .ok cards ∧ ∀ card ∈ cards, Legible card

theorem exists_addCard_iff (names : NameTable) (card : Json) :
    (∃ next, addCard names card = .ok next) ↔ Legible card := by
  unfold addCard Legible
  cases given "id" card with
  | none => exact ⟨fun _ _ => nofun, fun _ => ⟨_, rfl⟩⟩
  | some id =>
      cases given "name" card with
      | none => exact ⟨fun _ _ _ => nofun, fun _ => ⟨_, rfl⟩⟩
      | some name =>
          simp only [Option.some.injEq, forall_eq', Option.isSome_some, true_implies]
          rw [← Json.toWhole_eq_infinity_iff]
          cases id.toWhole with
          | ok number => exact ⟨fun _ => nofun, fun _ => ⟨_, rfl⟩⟩
          | error fault => cases fault <;> simp

theorem exists_addCards_iff (names : NameTable) (cards : List Json) :
    (∃ next, addCards names cards = .ok next) ↔ ∀ card ∈ cards, Legible card := by
  induction cards generalizing names with
  | nil => exact ⟨fun _ => nofun, fun _ => ⟨_, rfl⟩⟩
  | cons card cards ih =>
      rw [List.forall_mem_cons, ← exists_addCard_iff names card, addCards]
      cases addCard names card with
      | error fault => exact ⟨nofun, nofun⟩
      | ok next =>
          rw [← ih next.1]
          cases hrest : addCards next.1 cards with
          | error fault =>
              refine ⟨?_, ?_⟩
              · rintro ⟨last, hlast⟩
                simp [bind, Except.bind, hrest] at hlast
              · rintro ⟨-, last, hlast⟩
                cases hlast
          | ok last =>
              refine ⟨fun _ => ⟨⟨next, rfl⟩, last, rfl⟩, fun _ => ?_⟩
              simp [bind, Except.bind, hrest, pure, Except.pure]

theorem exists_ofCatalogues_iff (names : NameTable) (catalogues : List Json) :
    (∃ found, ofCatalogues names catalogues = .ok found) ↔
      ∀ catalogue ∈ catalogues, Listed catalogue := by
  induction catalogues generalizing names with
  | nil => exact ⟨fun _ => nofun, fun _ => ⟨_, rfl⟩⟩
  | cons catalogue catalogues ih =>
      rw [List.forall_mem_cons, Listed, ofCatalogues]
      cases Json.membersOrNone (catalogue.get? "cards") with
      | error fault => exact ⟨nofun, nofun⟩
      | ok cards =>
          simp only [Except.ok.injEq, exists_eq_left']
          rw [← exists_addCards_iff names cards]
          cases hnamed : addCards names cards with
          | error fault => simp [bind, Except.bind, hnamed]
          | ok named =>
              rw [← ih named.1]
              cases hrest : ofCatalogues named.1 catalogues with
              | error fault => simp [bind, Except.bind, hnamed, hrest]
              | ok last => simp [bind, Except.bind, hnamed, hrest, pure, Except.pure]

end NameTable

namespace Reply

/-- Whatever the answer holds, reading it ends with a catalogue or with a failure of the lookup. -/
def Manageable (reply : Reply) : Prop :=
  ∀ body, reply = .answered success body →
    match Json.parse (unmarked body) with
    | .ok (.obj fields) => NameTable.Listed (.obj fields)
    | .error (.numberTooLong _) => False
    | _ => True

theorem read_cases (url : String) (reply : Reply) :
    (∃ catalogue, reply.read url = .ok catalogue ∧
      (reply.Manageable ↔ NameTable.Listed catalogue)) ∨
    (∃ reason, reply.read url = .error (.failure ⟨.lookup url, reason⟩) ∧ reply.Manageable) ∨
    ∃ fault, reply.read url = .error (.fault fault) ∧ ¬ reply.Manageable := by
  cases reply with
  | failed kind detail => exact .inr (.inl ⟨_, rfl, nofun⟩)
  | answered status body =>
      by_cases hstatus : status = success
      · subst hstatus
        have hmanageable : (answered success body).Manageable ↔
            match Json.parse (unmarked body) with
            | .ok (.obj fields) => NameTable.Listed (.obj fields)
            | .error (.numberTooLong _) => False
            | _ => True := by
          unfold Manageable
          simp only [answered.injEq, true_and, forall_eq']
        rw [read, if_neg (fun h => h rfl), hmanageable]
        cases Json.parse (unmarked body) with
        | ok value =>
            cases value with
            | obj fields => exact .inl ⟨_, rfl, .rfl⟩
            | _ => exact .inr (.inl ⟨_, rfl, trivial⟩)
        | error error =>
            cases error with
            | malformed => exact .inr (.inl ⟨_, rfl, trivial⟩)
            | numberTooLong digits => exact .inr (.inr ⟨_, rfl, fun h => h⟩)
      · have hread : (answered status body).read url =
            .error (.told (.lookup url) ("non-200 response: " ++ toString status)) := by
          rw [read, if_pos hstatus]
        refine .inr (.inl ⟨_, hread, fun other hother => ?_⟩)
        cases hother
        exact absurd rfl hstatus

end Reply

namespace Lookup

/-- A lookup finds the names, fails for one of its URLs, or meets an answer that it cannot
manage. -/
theorem fetch_cases (reply : String → Reply) (cardsUrl talentsUrl : String) :
    (∃ names, (fetch reply cardsUrl talentsUrl).1 = .ok names ∧
      (reply cardsUrl).Manageable ∧ (reply talentsUrl).Manageable) ∨
    (∃ url reason, (url = cardsUrl ∨ url = talentsUrl) ∧
      (fetch reply cardsUrl talentsUrl).1 = .error (.failure ⟨.lookup url, reason⟩)) ∨
    ∃ fault, (fetch reply cardsUrl talentsUrl).1 = .error (.fault fault) ∧
      ¬ ((reply cardsUrl).Manageable ∧ (reply talentsUrl).Manageable) := by
  unfold fetch
  rcases Reply.read_cases cardsUrl (reply cardsUrl) with
    ⟨cards, hcards, hlisted⟩ | ⟨reason, hcards, -⟩ | ⟨fault, hcards, hnot⟩
  · rcases Reply.read_cases talentsUrl (reply talentsUrl) with
      ⟨talents, htalents, hlisted'⟩ | ⟨reason, htalents, -⟩ | ⟨fault, htalents, hnot⟩
    · rw [hcards, htalents, hlisted, hlisted']
      have hall := NameTable.exists_ofCatalogues_iff [] [cards, talents]
      simp only [List.forall_mem_cons, List.not_mem_nil, false_implies, implies_true,
        and_true] at hall
      rw [← hall]
      dsimp only [ofPayloads]
      cases NameTable.ofCatalogues [] [cards, talents] with
      | error fault => exact .inr (.inr ⟨fault, rfl, nofun⟩)
      | ok found => exact .inl ⟨found.1, rfl, found, rfl⟩
    · rw [hcards, htalents]
      exact .inr (.inl ⟨talentsUrl, reason, .inr rfl, rfl⟩)
    · rw [hcards, htalents]
      exact .inr (.inr ⟨fault, rfl, fun h => hnot h.2⟩)
  · rw [hcards]
    exact .inr (.inl ⟨cardsUrl, reason, .inl rfl, rfl⟩)
  · rw [hcards]
    exact .inr (.inr ⟨fault, rfl, fun h => hnot h.1⟩)

end Lookup

end StoryAtlas
