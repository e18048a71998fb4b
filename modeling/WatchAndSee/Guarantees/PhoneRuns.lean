import WatchAndSee.Guarantees.FeedSafety
import WatchAndSee.Guarantees.HomeScreen
import WatchAndSee.Guarantees.LatestRecipe
import WatchAndSee.Source.PhoneApp

/-!
# Runs of the phone and the watch

Any sequence of database answers, table requests, touches, sends and deliveries,
each with its own answer of the network. The screens stay consistent
(`Consistent`): touches are possible only once the recipes are there, every row
shows a category, the details show a recipe that the home screen offers. Hence the app can be brought down only by the answer of
the database and by a photo (`only_photos_trap`), and the watch shows recipes of
that answer, with the times that it can hold (`watch_shows_offered_recipes`).
-/

set_option autoImplicit false

namespace WatchAndSee.Guarantees.PhoneRuns
open WatchAndSee.Library WatchAndSee.Source
open WatchAndSee.Source.PhoneApp

variable {URL Data UIImage : Type}

/-- What the home screen offers: its highlight and the items of its rows. -/
def Offered (s : PhoneApp UIImage) (r : Recipes) : Prop :=
  s.home.controller.highlightRecipe = some r ∨ ∃ category ∈ s.home.controller.categories, r ∈ category.recipes

/-- The recipe whose photo an event has to load. -/
def pictured (s : PhoneApp UIImage) : PhoneEvent → Option Recipes
  | .highlightPressed => s.home.controller.highlightRecipe
  | .showItem section' row | .selectItem section' row =>
    (s.cells.lookup section').bind fun cell =>
      cell.category.bind fun category => category.recipes[row]?
  | _ => none

/-- The relation between the two screens, their rows and what was sent. -/
structure Consistent (s : PhoneApp UIImage) : Prop where
  loading : s.requested = true → s.home.isUserInteractionEnabled = false
  manager : s.requested = true → s.home.controller.objManager = .new
  touchable : s.home.isUserInteractionEnabled = true → s.home.controller.highlightRecipe.isSome
  quiet : s.home.isUserInteractionEnabled = false → s.details = none ∧ s.system.sent = []
  offers : ∀ r, Offered s r → r ∈ s.home.controller.recipes
  rows : ∀ entry ∈ s.cells, entry.2.delegate = true ∧
    ∃ category ∈ s.home.controller.categories, entry.2.category = some category
  shown : ∀ details, s.details = some details → ∃ r, Offered s r ∧ Shows details r
  sent : ∀ r ∈ s.system.sent, Offered s r

/-! ## What an event does -/

/-- A row that is there shows a category, and its items are the category's recipes. -/
theorem atItem_eq_some {s : PhoneApp UIImage} (consistent : Consistent s) {section' row : Nat}
    {answer : CategoryCell → Except Trap (PhoneApp UIImage)}
    {outcome : Except Trap (PhoneApp UIImage)}
    (possible : s.atItem section' row answer = some outcome) :
    ∃ cell category r, cell.category = some category ∧ cell.delegate = true ∧
      category ∈ s.home.controller.categories ∧ category.recipes[row]? = some r ∧
      s.cells.lookup section' = some cell ∧ outcome = answer cell := by
  unfold PhoneApp.atItem at possible
  cases here : s.cells.lookup section' with
  | none => simp [here] at possible
  | some cell =>
    have member : (section', cell) ∈ s.cells := by
      obtain ⟨before, later, split, _⟩ := List.lookup_eq_some_iff.mp here
      simp [split]
    obtain ⟨delegate, category, listed, shows⟩ := consistent.rows _ member
    simp only [here, CategoryCell.numberOfItems_showing shows] at possible
    split at possible
    · next inside =>
      refine ⟨cell, category, category.recipes[row], shows, delegate, listed,
        List.getElem?_eq_getElem inside, rfl, (Option.some.inj possible).symm⟩
    · contradiction

section Events

variable (E : Enumeration String AnyValue) (T : StringSearch)
  (images : ImageLoading URL Data UIImage) (noData : Data) (search : String)

/-- Everything that an event can do in a consistent state. -/
inductive Outcome (s : PhoneApp UIImage) : PhoneEvent → Except Trap (PhoneApp UIImage) → Prop where
  | dataReceived (snapshot : List DataSnapshot) (requested : s.requested = true) :
      Outcome s (.dataReceived snapshot) (s.dataReceived E T images search snapshot)
  | showRow (dequeued : CategoryCell) (section' : Nat) (category : Category)
      (listed : category ∈ s.home.controller.categories) :
      Outcome s (.showRow dequeued section')
        (.ok { s with cells := (section', ⟨some category, true⟩) :: s.cells })
  | showItem (section' row : Nat) (r : Recipes) (item : pictured s (.showItem section' row) = some r) :
      Outcome s (.showItem section' row)
        ((CategoryCell.setImage images noData r.photo).map fun _ => s)
  | opens (e : PhoneEvent) (r : Recipes) (loaded : UIImage → RecipesDetailsViewController UIImage)
      (touch : ∃ section' row, e = .selectItem section' row ∨ e = .highlightPressed)
      (enabled : s.home.isUserInteractionEnabled = true) (item : pictured s e = some r)
      (offered : Offered s r) (shows : ∀ image, Shows (loaded image) r) :
      Outcome s e ((setImage images r.photo).map fun image =>
        { s with home := { s.home with rec' := some r }, details := some (loaded image) })
  | showDetailsRow (section' row : Nat) : Outcome s (.showDetailsRow section' row) (.ok s)
  | startRecipe (connectivity : Connectivity) (details : RecipesDetailsViewController UIImage)
      (r : Recipes) (alert : Alert) (system : WatchSystem) (shown : s.details = some details)
      (about : details.recipe = some r)
      (step : s.system.next (.send connectivity r) = some system)
      (answer : (alert = RecipesDetailsViewController.sucesso ∧
          system.sent = s.system.sent ++ [r]) ∨
        (alert = RecipesDetailsViewController.erro ∧ system = s.system)) :
      Outcome s (.startRecipe connectivity) (.ok { s with alert := some alert, system := system })
  | dismissAlert : Outcome s .dismissAlert (.ok { s with alert := none })
  | back (shown : s.details.isSome) : Outcome s .back (.ok { s with details := none })
  | watch (e : PhoneEvent) (w : WatchEvent) (system : WatchSystem)
      (side : (e = .deliver ∧ w = .deliver) ∨ (e = .runBlock ∧ w = .runBlock))
      (step : s.system.next w = some system) : Outcome s e (.ok { s with system := system })

variable {E T images noData search}

theorem showRow_outcome {s : PhoneApp UIImage} {dequeued : CategoryCell} {section' : Nat}
    {outcome : Except Trap (PhoneApp UIImage)}
    (possible : s.next E T images noData search (.showRow dequeued section') = some outcome) :
    Outcome E T images noData search s (.showRow dequeued section') outcome := by
  unfold PhoneApp.next at possible
  dsimp only at possible
  split at possible
  · next inside =>
    unfold HomeView.numberOfSections at inside
    rw [← Option.some.inj possible]
    unfold HomeView.cellForRowAt
    rw [elementAt_natCast, List.getElem?_eq_getElem inside]
    exact .showRow dequeued section' _ (List.getElem_mem inside)
  · contradiction

theorem highlight_outcome {s : PhoneApp UIImage} (consistent : Consistent s)
    {outcome : Except Trap (PhoneApp UIImage)}
    (possible : s.next E T images noData search .highlightPressed = some outcome) :
    Outcome E T images noData search s .highlightPressed outcome := by
  unfold PhoneApp.next at possible
  dsimp only at possible
  split at possible
  · next touch =>
    unfold PhoneApp.homeTouchable at touch
    obtain ⟨enabled, _⟩ := Bool.and_eq_true_iff.mp touch
    obtain ⟨r, highlight⟩ := Option.isSome_iff_exists.mp (consistent.touchable enabled)
    obtain ⟨loaded, run, shows⟩ := goToDetails_eq images s.home r
    rw [← Option.some.inj possible]
    unfold HomeView.highlightPressed PhoneApp.opening
    rw [highlight]
    simp only [forceUnwrap_some, bind, Except.bind, run, map_map]
    exact .opens _ r loaded ⟨0, 0, .inr rfl⟩ enabled highlight (.inl highlight) shows
  · contradiction

theorem select_outcome {s : PhoneApp UIImage} (consistent : Consistent s) {section' row : Nat}
    {outcome : Except Trap (PhoneApp UIImage)}
    (possible : s.next E T images noData search (.selectItem section' row) = some outcome) :
    Outcome E T images noData search s (.selectItem section' row) outcome := by
  unfold PhoneApp.next at possible
  dsimp only at possible
  split at possible
  · next touch =>
    unfold PhoneApp.homeTouchable at touch
    obtain ⟨enabled, _⟩ := Bool.and_eq_true_iff.mp touch
    obtain ⟨cell, category, r, shows, delegate, listed, item, here, rfl⟩ :=
      atItem_eq_some consistent possible
    obtain ⟨loaded, run, shown⟩ := goToDetails_eq images s.home r
    rw [CategoryCell.didSelectItemAt_showing shows delegate item]
    unfold HomeView.presentData PhoneApp.opening
    simp only [bind, Except.bind, run, map_map]
    refine .opens _ r loaded ⟨section', row, .inl rfl⟩ enabled ?_
      (.inr ⟨category, listed, List.mem_of_getElem? item⟩) shown
    simp [pictured, here, shows, item]
  · contradiction

theorem showItem_outcome {s : PhoneApp UIImage} (consistent : Consistent s) {section' row : Nat}
    {outcome : Except Trap (PhoneApp UIImage)}
    (possible : s.next E T images noData search (.showItem section' row) = some outcome) :
    Outcome E T images noData search s (.showItem section' row) outcome := by
  obtain ⟨cell, category, r, shows, _, _, item, here, rfl⟩ := atItem_eq_some consistent possible
  rw [CategoryCell.cellForItemAt_showing images noData shows item, map_map]
  refine .showItem section' row r ?_
  simp [pictured, here, shows, item]

/-- Both lists of the details have a title, and every cell of them a text. -/
theorem showDetailsRow_outcome {s : PhoneApp UIImage} (consistent : Consistent s)
    {section' row : Nat} {outcome : Except Trap (PhoneApp UIImage)}
    (possible : s.next E T images noData search (.showDetailsRow section' row) = some outcome) :
    Outcome E T images noData search s (.showDetailsRow section' row) outcome := by
  unfold PhoneApp.next at possible
  dsimp only at possible
  cases shown : s.details with
  | none => simp [shown] at possible
  | some details =>
    obtain ⟨r, _, shows⟩ := consistent.shown details shown
    simp only [shown] at possible
    split at possible
    · next inside =>
      have two : section' < details.items.length := by
        rw [shows.items]
        exact inside
      have here : details.items[section']? = some details.items[section'] :=
        List.getElem?_eq_getElem two
      unfold RecipesDetailsViewController.numberOfRowsInSection at possible
      rw [elementAt_natCast, here] at possible
      simp only [Option.elim_some, Except.map] at possible
      split at possible
      · next below =>
        rw [RecipesDetailsViewController.cell_texts details section' _ here row _
          (List.getElem?_eq_getElem below)] at possible
        rw [← Option.some.inj possible]
        exact .showDetailsRow section' row
      · contradiction
    · contradiction

theorem startRecipe_outcome {s : PhoneApp UIImage} (consistent : Consistent s)
    {connectivity : Connectivity} {outcome : Except Trap (PhoneApp UIImage)}
    (possible : s.next E T images noData search (.startRecipe connectivity) = some outcome) :
    Outcome E T images noData search s (.startRecipe connectivity) outcome := by
  unfold PhoneApp.next at possible
  dsimp only at possible
  split at possible
  · next details shown covered =>
    obtain ⟨r, _, shows⟩ := consistent.shown details shown
    have about := shows.about
    rw [← Option.some.inj possible]
    rcases prepareToSendValue_cases connectivity s.system.applicationContext r with stored | failed
    · have pressed : details.startRecipeButtonPressed connectivity s.system.applicationContext =
          (some (sendToWatch r).bridged, some RecipesDetailsViewController.sucesso) := by
        simp [RecipesDetailsViewController.startRecipeButtonPressed, about, stored]
      simp only [pressed, if_true, about, Option.toList_some]
      refine .startRecipe connectivity details r _ _ shown about ?_ (.inl ⟨rfl, rfl⟩)
      simp [WatchSystem.next, stored]
    · have pressed : details.startRecipeButtonPressed connectivity s.system.applicationContext =
          (s.system.applicationContext, some RecipesDetailsViewController.erro) := by
        simp [RecipesDetailsViewController.startRecipeButtonPressed, about, failed]
      have apart : ¬ some RecipesDetailsViewController.erro =
          some RecipesDetailsViewController.sucesso := by decide
      simp only [pressed, if_neg apart]
      refine .startRecipe connectivity details r _ _ shown about ?_ (.inr ⟨rfl, rfl⟩)
      simp [WatchSystem.next, failed]
  · contradiction

/-- The inversion of the whole system. -/
theorem next_outcome {s : PhoneApp UIImage} (consistent : Consistent s) {e : PhoneEvent}
    {outcome : Except Trap (PhoneApp UIImage)}
    (possible : s.next E T images noData search e = some outcome) :
    Outcome E T images noData search s e outcome := by
  cases e with
  | dataReceived snapshot =>
    unfold PhoneApp.next at possible
    dsimp only at possible
    split at possible
    · next requested =>
      rw [← Option.some.inj possible]
      exact .dataReceived snapshot requested
    · contradiction
  | showRow dequeued section' => exact showRow_outcome possible
  | showItem section' row => exact showItem_outcome consistent possible
  | highlightPressed => exact highlight_outcome consistent possible
  | selectItem section' row => exact select_outcome consistent possible
  | showDetailsRow section' row => exact showDetailsRow_outcome consistent possible
  | startRecipe connectivity => exact startRecipe_outcome consistent possible
  | dismissAlert =>
    unfold PhoneApp.next at possible
    dsimp only at possible
    split at possible
    · rw [← Option.some.inj possible]
      exact .dismissAlert
    · contradiction
  | back =>
    unfold PhoneApp.next at possible
    dsimp only at possible
    split at possible
    · next visible =>
      rw [← Option.some.inj possible]
      exact .back visible.1
    · contradiction
  | deliver =>
    obtain ⟨system, step, rfl⟩ := Option.map_eq_some_iff.mp possible
    exact .watch _ .deliver system (.inl ⟨rfl, rfl⟩) step
  | runBlock =>
    obtain ⟨system, step, rfl⟩ := Option.map_eq_some_iff.mp possible
    exact .watch _ .runBlock system (.inr ⟨rfl, rfl⟩) step

/-- What the screen holds once the recipes are there. -/
def afterLoad (home : HomeView UIImage) (controller : ViewController UIImage) : HomeView UIImage :=
  { home with
    controller := controller
    isUserInteractionEnabled := true
    activityIndicator := false
    loadingViewIsHidden := true
    loadingLabelIsHidden := true }

theorem dataReceived_success {s s' : PhoneApp UIImage} {snapshot : List DataSnapshot}
    (success : s.dataReceived E T images search snapshot = .ok s') :
    ∃ service parts filled highlight image, snapshot.mapM (childPart E) = .ok parts ∧
      s.home.controller.categories.mapM (fillCategory T parts.flatten) = .ok filled ∧
      firstMatch T parts.flatten search = .ok highlight ∧
      setImage images highlight.photo = .ok image ∧
      s' = { s with
        service := service
        requested := false
        cells := []
        home := afterLoad s.home
          (s.home.controller.loaded parts.flatten filled highlight image) } := by
  unfold PhoneApp.dataReceived at success
  simp only [bind_success_iff, pure_eq_ok, Except.ok.injEq] at success
  obtain ⟨⟨service, completions⟩, run, home, completed, rfl⟩ := success
  obtain ⟨parts, parsed, calls⟩ := (createRecipeObject_success_iff E _ _ _).mp ⟨service, run⟩
  dsimp only at completed
  rw [calls, List.foldlM_cons] at completed
  simp only [List.foldlM_nil, bind_success_iff, pure_eq_ok, Except.ok.injEq] at completed
  obtain ⟨after, handled, rfl⟩ := completed
  unfold HomeView.completion at handled
  simp only [bind_success_iff, pure_eq_ok, Except.ok.injEq] at handled
  obtain ⟨controller, filling, rfl⟩ := handled
  simp only [ViewController.completion_eq, bind_success_iff, map_success_iff] at filling
  obtain ⟨filled, categories, highlight, selected, image, loaded, rfl⟩ := filling
  exact ⟨service, parts, filled, highlight, image, parsed, categories, selected, loaded, rfl⟩

/-! ## The invariant -/

theorem consistent_launched (checkCconnection : Bool) :
    Consistent (launched checkCconnection : PhoneApp UIImage) := by
  have home : (launched checkCconnection : PhoneApp UIImage).home.controller =
        (ViewController.new : ViewController UIImage).viewDidLoad ∧
      (launched checkCconnection : PhoneApp UIImage).home.isUserInteractionEnabled = false := by
    cases checkCconnection <;> exact ⟨rfl, rfl⟩
  refine ⟨fun _ => home.2, fun _ => by rw [home.1]; rfl, fun enabled => ?_, fun _ => ⟨rfl, rfl⟩, ?_,
    fun entry member => ?_, fun details shown => ?_, fun r member => ?_⟩
  · rw [home.2] at enabled
    contradiction
  · intro r offered
    unfold Offered at offered
    rw [home.1] at offered
    rcases offered with highlight | ⟨category, listed, item⟩
    · contradiction
    · simp only [ViewController.viewDidLoad, ViewController.setupCategories, ViewController.new,
        List.nil_append, List.cons_append, List.mem_cons, List.not_mem_nil, or_false] at listed
      rcases listed with rfl | rfl <;> exact absurd item (List.not_mem_nil)
  · exact absurd member List.not_mem_nil
  · contradiction
  · exact absurd member List.not_mem_nil

theorem firstMatch_mem {feed : List Recipes} {text : String} {r : Recipes}
    (selected : firstMatch T feed text = .ok r) : r ∈ feed :=
  List.mem_of_find?_eq_some ((firstMatch_success_iff T feed text r).mp selected)

theorem filled_from_feed {feed : List Recipes} {categories filled : List Category}
    (success : categories.mapM (fillCategory T feed) = .ok filled) :
    ∀ category ∈ filled, ∀ r ∈ category.recipes, r ∈ feed := by
  intro category listed r item
  obtain ⟨input, _, fills⟩ := mapM_success_mem success listed
  unfold fillCategory at fills
  split at fills
  · contradiction
  · obtain ⟨recipes, selected, rfl⟩ := map_success_iff.mp fills
    obtain ⟨text, _, first⟩ := mapM_success_mem selected item
    exact firstMatch_mem first

/-- The load. -/
theorem consistent_loaded {s s' : PhoneApp UIImage} (consistent : Consistent s)
    (requested : s.requested = true) {snapshot : List DataSnapshot}
    (success : s.dataReceived E T images search snapshot = .ok s') : Consistent s' := by
  obtain ⟨service, parts, filled, highlight, image, _, categories, selected, _, rfl⟩ :=
    dataReceived_success success
  obtain ⟨noDetails, nothingSent⟩ := consistent.quiet (consistent.loading requested)
  have listed : (s.home.controller.loaded parts.flatten filled highlight image).categories = filled := by
    simp [ViewController.loaded, consistent.manager requested, ObjectsManager.new]
  refine ⟨fun again => ?_, fun again => ?_, fun _ => rfl, fun disabled => ?_, ?_,
    fun entry member => ?_, fun details shown => ?_, fun r member => ?_⟩
  · contradiction
  · contradiction
  · contradiction
  · rintro r (isHighlight | ⟨category, member, item⟩)
    · obtain rfl : highlight = r := Option.some.inj isHighlight
      exact firstMatch_mem selected
    · refine filled_from_feed categories category ?_ r item
      rw [← listed]
      exact member
  · exact absurd member List.not_mem_nil
  · rw [noDetails] at shown
    contradiction
  · rw [nothingSent] at member
    exact absurd member List.not_mem_nil

/-- Alerts, deliveries and sends leave the screens alone. -/
theorem Consistent.with_system {s : PhoneApp UIImage} (consistent : Consistent s)
    (alert : Option Alert) {system : WatchSystem} (sent : ∀ r ∈ system.sent, Offered s r)
    (quiet : s.home.isUserInteractionEnabled = false → system.sent = []) :
    Consistent { s with alert := alert, system := system } where
  loading := consistent.loading
  manager := consistent.manager
  touchable := consistent.touchable
  quiet disabled := ⟨(consistent.quiet disabled).1, quiet disabled⟩
  offers := consistent.offers
  rows := consistent.rows
  shown := consistent.shown
  sent := sent

theorem sent_unchanged {system system' : WatchSystem} {w : WatchEvent}
    (side : w = .deliver ∨ w = .runBlock) (step : system.next w = some system') :
    system'.sent = system.sent := by
  rcases side with rfl | rfl
  · unfold WatchSystem.next at step
    dsimp only at step
    split at step
    · contradiction
    · rw [← Option.some.inj step]
  · unfold WatchSystem.next at step
    dsimp only at step
    split at step
    · contradiction
    · rw [← Option.some.inj step]

/-- The step lemma. -/
theorem consistent_step {s s' : PhoneApp UIImage} (consistent : Consistent s) {e : PhoneEvent}
    {outcome : Except Trap (PhoneApp UIImage)}
    (effect : Outcome E T images noData search s e outcome) (success : outcome = .ok s') :
    Consistent s' := by
  cases effect with
  | dataReceived snapshot requested => exact consistent_loaded consistent requested success
  | showRow dequeued section' category listed =>
    obtain rfl := Except.ok.inj success
    exact { consistent with
      rows := List.forall_mem_cons.mpr ⟨⟨rfl, category, listed, rfl⟩, consistent.rows⟩ }
  | showItem section' row r item =>
    obtain ⟨_, _, rfl⟩ := map_success_iff.mp success
    exact consistent
  | opens e r loaded touch enabled item offered shows =>
    obtain ⟨image, _, rfl⟩ := map_success_iff.mp success
    refine { consistent with quiet := fun disabled => ?_, shown := fun details shown => ?_ }
    · rw [enabled] at disabled
      contradiction
    · obtain rfl := Option.some.inj shown
      exact ⟨r, offered, shows image⟩
  | showDetailsRow section' row =>
    obtain rfl := Except.ok.inj success
    exact consistent
  | startRecipe connectivity details r alert system shown about step answer =>
    obtain rfl := Except.ok.inj success
    obtain ⟨r', offered, shows⟩ := consistent.shown details shown
    obtain rfl : r = r' := Option.some.inj (about.symm.trans shows.about)
    have enabled : s.home.isUserInteractionEnabled ≠ false := by
      intro disabled
      rw [(consistent.quiet disabled).1] at shown
      contradiction
    refine consistent.with_system (some alert) ?_ fun disabled => absurd disabled enabled
    rcases answer with ⟨_, sent⟩ | ⟨_, same⟩
    · rw [sent]
      intro q member
      rcases List.mem_append.mp member with old | new
      · exact consistent.sent q old
      · rw [List.mem_singleton.mp new]
        exact offered
    · rw [same]
      exact consistent.sent
  | dismissAlert =>
    obtain rfl := Except.ok.inj success
    exact consistent.with_system none consistent.sent fun disabled => (consistent.quiet disabled).2
  | back shown =>
    obtain rfl := Except.ok.inj success
    refine { consistent with
      quiet := fun disabled => ⟨rfl, (consistent.quiet disabled).2⟩
      shown := fun details shown => ?_ }
    contradiction
  | watch e w system side step =>
    obtain rfl := Except.ok.inj success
    have same := sent_unchanged (side.imp And.right And.right) step
    refine consistent.with_system s.alert ?_ fun disabled => ?_
    · rw [same]
      exact consistent.sent
    · rw [same]
      exact (consistent.quiet disabled).2

/-- Every state of every run. -/
theorem consistent_of_reachable {checkCconnection : Bool} {s : PhoneApp UIImage}
    (reached : (machine E T images noData search checkCconnection).Reachable s) : Consistent s := by
  refine reached.invariant (consistent_launched checkCconnection) ?_
  intro s e s' consistent step
  have possible : s.next E T (images.answered e.contents) noData search e.event = some (.ok s') := step
  exact consistent_step consistent (next_outcome consistent possible) rfl

/-! ## What can bring the app down -/

/-- After the answer of the database only a photo matters: in every reachable
state every other event succeeds, and an event that loads a photo traps exactly
when the photo cannot be loaded at that moment, whether or not it loaded before,
also where the code catches the error of the download. -/
theorem only_photos_trap (noPicture : images.image noData = none) (checkCconnection : Bool)
    (s : PhoneApp UIImage)
    (reached : (machine E T images noData search checkCconnection).Reachable s) (e : PhoneEvent)
    (later : ∀ snapshot, e ≠ .dataReceived snapshot) (contents : URL → Option Data)
    (outcome : Except Trap (PhoneApp UIImage))
    (possible : s.next E T (images.answered contents) noData search e = some outcome) :
    Succeeds outcome ↔
      ∀ r, pictured s e = some r → Succeeds (setImage (images.answered contents) r.photo) := by
  have effect := next_outcome (consistent_of_reachable reached) possible
  have item {r : Recipes} (needed : pictured s e = some r) :
      (∀ r, pictured s e = some r → Succeeds (setImage (images.answered contents) r.photo)) ↔
        Succeeds (setImage (images.answered contents) r.photo) := by
    rw [needed]
    simp
  cases effect with
  | dataReceived snapshot requested => exact absurd rfl (later snapshot)
  | showItem section' row r needed =>
    rw [item needed, succeeds_map, CategoryCell.setImage_succeeds_iff (images.answered contents) noPicture]
  | opens e r loaded touch enabled needed offered shows => rw [item needed, succeeds_map]
  | showRow | showDetailsRow | dismissAlert | back | startRecipe => simp [pictured]
  | watch e w system side step =>
    rcases side with ⟨rfl, _⟩ | ⟨rfl, _⟩ <;> simp [pictured]

/-! ## From the database to the watch -/

/-- Seen from the connection an event of the app is one of its own or none. -/
theorem system_step {s s' : PhoneApp UIImage} {e : PhoneEvent}
    {outcome : Except Trap (PhoneApp UIImage)}
    (effect : Outcome E T images noData search s e outcome) (success : outcome = .ok s') :
    s'.system = s.system ∨ ∃ w, s.system.next w = some s'.system := by
  cases effect with
  | dataReceived snapshot requested =>
    obtain ⟨_, _, _, _, _, _, _, _, _, rfl⟩ := dataReceived_success success
    exact .inl rfl
  | showItem =>
    obtain ⟨_, _, rfl⟩ := map_success_iff.mp success
    exact .inl rfl
  | opens =>
    obtain ⟨_, _, rfl⟩ := map_success_iff.mp success
    exact .inl rfl
  | startRecipe connectivity details r alert system shown about step answer =>
    obtain rfl := Except.ok.inj success
    exact .inr ⟨_, step⟩
  | watch e w system side step =>
    obtain rfl := Except.ok.inj success
    exact .inr ⟨w, step⟩
  | showRow | showDetailsRow | dismissAlert | back =>
    obtain rfl := Except.ok.inj success
    exact .inl rfl

def answer : PhoneEvent → Option (List DataSnapshot)
  | .dataReceived snapshot => some snapshot
  | _ => none

/-- The answers of the database among the events. -/
def answers (events : List (Occurrence URL Data)) : List (List DataSnapshot) :=
  events.filterMap fun e => answer e.event

theorem answers_snoc (events : List (Occurrence URL Data)) (e : Occurrence URL Data) :
    answers (events ++ [e]) = answers events ++ (answer e.event).toList := by
  unfold answers
  rw [List.filterMap_append]
  cases received : answer e.event <;> simp [received]

/-- Where the recipes of the home screen come from. -/
inductive Fed (E : Enumeration String AnyValue) (checkCconnection : Bool)
    (events : List (Occurrence URL Data)) (s : PhoneApp UIImage) : Prop where
  | waiting (requested : s.requested = checkCconnection) (none : answers events = [])
      (disabled : s.home.isUserInteractionEnabled = false)
  | answered (online : checkCconnection = true) (done : s.requested = false)
      (snapshot : List DataSnapshot) (parts : List (List Recipes))
      (one : answers events = [snapshot]) (parsed : snapshot.mapM (childPart E) = .ok parts)
      (recipes : s.home.controller.recipes = parts.flatten)

/-- An event that is no answer and leaves the recipes alone. -/
theorem Fed.other {checkCconnection : Bool} {events : List (Occurrence URL Data)}
    {s s' : PhoneApp UIImage} {e : Occurrence URL Data} (fed : Fed E checkCconnection events s)
    (noAnswer : answer e.event = none)
    (requested : s'.requested = s.requested)
    (enabled : s'.home.isUserInteractionEnabled = s.home.isUserInteractionEnabled)
    (recipes : s'.home.controller.recipes = s.home.controller.recipes) :
    Fed E checkCconnection (events ++ [e]) s' := by
  have same : answers (events ++ [e]) = answers events := by
    rw [answers_snoc, noAnswer, Option.toList_none, List.append_nil]
  cases fed with
  | waiting waits none disabled =>
    exact .waiting (requested.trans waits) (same.trans none) (enabled.trans disabled)
  | answered online done snapshot parts one parsed read =>
    exact .answered online (requested.trans done) snapshot parts (same.trans one) parsed
      (recipes.trans read)

theorem fed_step {checkCconnection : Bool} {events : List (Occurrence URL Data)}
    {s s' : PhoneApp UIImage} {e : Occurrence URL Data} {outcome : Except Trap (PhoneApp UIImage)}
    (fed : Fed E checkCconnection events s)
    (effect : Outcome E T images noData search s e.event outcome) (success : outcome = .ok s') :
    Fed E checkCconnection (events ++ [e]) s' := by
  obtain ⟨e, contents⟩ := e
  cases effect with
  | dataReceived snapshot requested =>
    obtain ⟨service, parts, filled, highlight, image, parsed, _, _, _, rfl⟩ :=
      dataReceived_success success
    cases fed with
    | waiting same none disabled =>
      refine .answered (same.symm.trans requested) rfl snapshot parts ?_ parsed rfl
      rw [answers_snoc, none]
      rfl
    | answered _ done =>
      rw [requested] at done
      contradiction
  | showItem =>
    obtain ⟨_, _, rfl⟩ := map_success_iff.mp success
    exact fed.other rfl rfl rfl rfl
  | opens e r loaded touch =>
    obtain ⟨_, _, rfl⟩ := map_success_iff.mp success
    have noAnswer : answer e = none := by
      obtain ⟨section', row, touched⟩ := touch
      rcases touched with rfl | rfl <;> rfl
    exact fed.other noAnswer rfl rfl rfl
  | watch e w system side step =>
    obtain rfl := Except.ok.inj success
    have noAnswer : answer e = none := by
      rcases side with ⟨rfl, _⟩ | ⟨rfl, _⟩ <;> rfl
    exact fed.other noAnswer rfl rfl rfl
  | showRow | showDetailsRow | startRecipe | dismissAlert | back =>
    obtain rfl := Except.ok.inj success
    exact fed.other rfl rfl rfl rfl

/-- The three invariants of a run. -/
structure Sound (E : Enumeration String AnyValue) (checkCconnection : Bool)
    (events : List (Occurrence URL Data)) (s : PhoneApp UIImage) : Prop where
  consistent : Consistent s
  fed : Fed E checkCconnection events s
  connection : WatchSystem.machine.Reachable s.system

theorem sound_of_run {checkCconnection : Bool} {events : List (Occurrence URL Data)}
    {s : PhoneApp UIImage}
    (run : (machine E T images noData search checkCconnection).Run events s) :
    Sound E checkCconnection events s := by
  refine run.invariant (I := Sound E checkCconnection) ?_ ?_
  · refine ⟨consistent_launched checkCconnection, ?_, .start⟩
    cases checkCconnection <;> exact .waiting rfl rfl rfl
  · intro events s e s' sound step
    have possible : s.next E T (images.answered e.contents) noData search e.event = some (.ok s') :=
      step
    have effect := next_outcome sound.consistent possible
    refine ⟨consistent_step sound.consistent effect rfl, fed_step sound.fed effect rfl, ?_⟩
    rcases system_step effect rfl with same | ⟨w, moved⟩
    · rw [same]
      exact sound.connection
    · exact .next w sound.connection moved

/-- In every run the database is read at most once, and never without a
connection. Before that the phone shows no recipe, has sent none, and the watch
shows nothing. Afterwards the details on the phone and everything that was sent
are recipes that the home screen offers, each parsed from a child of that one
answer, and the watch shows the steps of one of them as it holds them. -/
theorem watch_shows_offered_recipes (checkCconnection : Bool)
    (events : List (Occurrence URL Data)) (s : PhoneApp UIImage)
    (run : (machine E T images noData search checkCconnection).Run events s) :
    (answers events = [] ∧ s.details = none ∧ s.system.sent = [] ∧ s.system.watch.steps = []) ∨
    ∃ snapshot parts, checkCconnection = true ∧ answers events = [snapshot] ∧
      snapshot.mapM (childPart E) = .ok parts ∧
      (∀ details, s.details = some details →
        ∃ r ∈ parts.flatten, Offered s r ∧ Shows details r) ∧
      (∀ r ∈ s.system.sent, r ∈ parts.flatten ∧ Offered s r) ∧
      (s.system.watch.steps = [] ∨
        ∃ r ∈ parts.flatten, Offered s r ∧ s.system.watch.steps = r.stepsOn .watch) := by
  have sound := sound_of_run run
  have consistent := sound.consistent
  have current := LatestRecipe.watch_steps_last sound.connection
  have sublist : s.system.shown.Sublist (s.system.sent.map (Recipes.stepsOn · .watch)) :=
    (LatestChannel.sound_of_reachable
      (LatestRecipe.system_refines_channel.reachable sound.connection)).shown_sublist
  have watch : s.system.watch.steps = [] ∨
      ∃ r ∈ s.system.sent, s.system.watch.steps = r.stepsOn .watch := by
    rw [current]
    cases last : s.system.shown.getLast? with
    | none => exact .inl rfl
    | some steps =>
      have member := sublist.subset (List.mem_of_getLast? last)
      obtain ⟨r, inside, same⟩ := List.mem_map.mp member
      exact .inr ⟨r, inside, same.symm⟩
  cases sound.fed with
  | waiting _ none disabled =>
    obtain ⟨noDetails, nothingSent⟩ := consistent.quiet disabled
    rw [nothingSent] at watch
    exact .inl ⟨none, noDetails, nothingSent, by simpa using watch⟩
  | answered online _ snapshot parts one parsed recipes =>
    have fromFeed : ∀ r, Offered s r → r ∈ parts.flatten := fun r offered =>
      recipes ▸ consistent.offers r offered
    refine .inr ⟨snapshot, parts, online, one, parsed, ?_, ?_, ?_⟩
    · intro details shown
      obtain ⟨r, offered, shows⟩ := consistent.shown details shown
      exact ⟨r, fromFeed r offered, offered, shows⟩
    · intro r member
      have offered := consistent.sent r member
      exact ⟨fromFeed r offered, offered⟩
    · refine watch.imp_right fun given => ?_
      obtain ⟨r, member, same⟩ := given
      have offered := consistent.sent r member
      exact ⟨r, fromFeed r offered, offered, same⟩

end Events

/-! ## A weekend -/

/-- Photos load, an empty download is none. -/
def pictures : ImageLoading Unit Bool Unit :=
  ⟨fun _ => some (), fun _ => some true, fun data => if data then some () else none⟩

/-- The dish as the database holds it. -/
def storedDish (name : String) : DataSnapshot :=
  ⟨.dictionary ((FeedSafety.dish (Dictionary.empty.set "i1" (.string "Sal"))
    (Dictionary.empty.set "p1" (.dictionary (Dictionary.empty.set "Texto" (.string "Asse"))))).set
      "nome" (.string name))⟩

def weekend : List DataSnapshot := HomeScreen.weekendDishes.map storedDish

/-- The dish as the parser reads it. -/
def readDish (name : String) : Recipes :=
  { name := name, ingredients := ["Sal"], time := "40 min", rendiment := "4", photo := "http://foto",
    steps := [⟨"Asse", none⟩] }

theorem storedDish_read (name : String) :
    childPart Enumeration.ascending (storedDish name) = .ok [readDish name] := rfl

theorem weekend_parsed : weekend.mapM (childPart Enumeration.ascending) =
    .ok (HomeScreen.weekendDishes.map fun name => [readDish name]) := by
  unfold weekend
  rw [List.mapM_map]
  exact mapM_of_forall _ _ _ fun name _ => storedDish_read name

def weekendFeed : List Recipes := (HomeScreen.weekendDishes.map fun name => [readDish name]).flatten

theorem weekend_matched (name : String) (listed : name ∈ HomeScreen.weekendDishes) :
    ∃ r ∈ weekendFeed, nameContains HomeScreen.asciiSearch name r = true := by
  refine ⟨readDish name, ?_, HomeScreen.nameContains_self name⟩
  simpa [weekendFeed] using ⟨name, listed, rfl⟩

/-- The app on a phone that is online. -/
abbrev weekendApp : Machine (PhoneApp Unit) (Occurrence Unit Bool) :=
  machine Enumeration.ascending HomeScreen.asciiSearch pictures false
    ViewController.highlightSearch true

/-- The categories of the app can be filled from the weekend's dishes. -/
theorem weekend_fills : ∃ filled,
    (ViewController.new : ViewController Unit).viewDidLoad.categories.mapM
      (fillCategory HomeScreen.asciiSearch weekendFeed) = .ok filled := by
  apply (HomeScreen.categories_succeed_iff _ _ _).mpr
  intro category member
  simp only [ViewController.viewDidLoad, ViewController.setupCategories, ViewController.new,
    List.nil_append, List.cons_append, List.mem_cons, List.not_mem_nil, or_false] at member
  constructor
  · rcases member with rfl | rfl <;> simp [Category.setValues]
  · intro element inside
    apply weekend_matched
    rcases member with rfl | rfl
    · simp only [Category.setValues, List.mem_cons, List.not_mem_nil, or_false] at inside
      rcases inside with rfl | rfl <;> simp [HomeScreen.weekendDishes]
    · simp only [Category.setValues, List.mem_cons, List.not_mem_nil, or_false] at inside
      rcases inside with rfl | rfl | rfl <;> simp [HomeScreen.weekendDishes]

/-- The app once the weekend's dishes are there. -/
def weekendLoaded (service : DatabaseService) (filled : List Category) (highlight : Recipes) :
    PhoneApp Unit :=
  { (launched true : PhoneApp Unit) with
    service := service
    requested := false
    cells := []
    home := afterLoad (launched true : PhoneApp Unit).home
      ((launched true : PhoneApp Unit).home.controller.loaded weekendFeed filled highlight ()) }

theorem weekend_loads : ∃ service filled highlight,
    weekendApp.step weekendApp.initial ⟨.dataReceived weekend, pictures.contents⟩
      (weekendLoaded service filled highlight) := by
  obtain ⟨filled, fills⟩ := weekend_fills
  obtain ⟨highlight, selected⟩ := (firstMatch_succeeds_iff HomeScreen.asciiSearch weekendFeed
    ViewController.highlightSearch).mpr (weekend_matched _ (by
      simp [HomeScreen.weekendDishes, ViewController.highlightSearch]))
  obtain ⟨service, run⟩ := (createRecipeObject_success_iff Enumeration.ascending .shared weekend
    [some weekendFeed]).mpr ⟨_, weekend_parsed, rfl⟩
  have handled : (launched true : PhoneApp Unit).home.controller.completion HomeScreen.asciiSearch
      pictures ViewController.highlightSearch (some weekendFeed) =
      .ok ((launched true : PhoneApp Unit).home.controller.loaded weekendFeed filled highlight ()) := by
    rw [ViewController.completion_eq]
    simp only [bind_success_iff, map_success_iff]
    exact ⟨filled, fills, highlight, selected, (), rfl, rfl⟩
  have answered : (launched true : PhoneApp Unit).dataReceived Enumeration.ascending
      HomeScreen.asciiSearch pictures ViewController.highlightSearch weekend =
      .ok (weekendLoaded service filled highlight) := by
    unfold PhoneApp.dataReceived
    rw [show (launched true : PhoneApp Unit).service = .shared from rfl, run]
    simp only [bind, Except.bind, List.foldlM_cons, List.foldlM_nil, HomeView.completion, handled]
    rfl
  exact ⟨service, filled, highlight, congrArg some answered⟩

/-- The details of a recipe with a picture. -/
def weekendDetails (r : Recipes) : RecipesDetailsViewController Unit :=
  ⟨some (), some r.name, some r.time, some r.rendiment, some r,
    [r.ingredients, r.steps.map Step.text], r.steps.map Step.text⟩

theorem weekend_details (r : Recipes) :
    (RecipesDetailsViewController.showing r).viewDidLoad pictures = .ok (weekendDetails r) := by
  unfold RecipesDetailsViewController.viewDidLoad
  rw [RecipesDetailsViewController.setupSteps_showing]
  rfl

/-- With the details of the highlight. -/
def weekendOpened (service : DatabaseService) (filled : List Category) (highlight : Recipes) :
    PhoneApp Unit :=
  let s := weekendLoaded service filled highlight
  { s with home := { s.home with rec' := some highlight }, details := some (weekendDetails highlight) }

theorem weekend_opens (service : DatabaseService) (filled : List Category) (highlight : Recipes) :
    weekendApp.step (weekendLoaded service filled highlight) ⟨.highlightPressed, pictures.contents⟩
      (weekendOpened service filled highlight) := by
  have opened : (weekendLoaded service filled highlight).home.highlightPressed pictures =
      .ok ((weekendOpened service filled highlight).home, weekendDetails highlight) := by
    unfold HomeView.highlightPressed HomeView.goToDetails HomeView.prepare
    simp only [weekendLoaded, afterLoad, ViewController.loaded, forceUnwrap_some, bind, Except.bind,
      pure_eq_ok, weekend_details]
    rfl
  have next : (weekendLoaded service filled highlight).opening
      ((weekendLoaded service filled highlight).home.highlightPressed pictures) =
      .ok (weekendOpened service filled highlight) := by
    rw [opened]
    rfl
  exact congrArg some next

/-- A touch of the highlight where its photo loaded with the recipes: it opens
the details while the network goes on to answer, and traps once it is gone. -/
theorem weekend_highlight_opens : ∃ s, weekendApp.Reachable s ∧
    ∀ contents, ∃ outcome,
      s.next Enumeration.ascending HomeScreen.asciiSearch (pictures.answered contents) false
        ViewController.highlightSearch .highlightPressed = some outcome ∧
      (Succeeds outcome ↔ contents () = some true) := by
  obtain ⟨service, filled, highlight, loads⟩ := weekend_loads
  have reached : weekendApp.Reachable (weekendLoaded service filled highlight) := .next _ .start loads
  refine ⟨_, reached, ?_⟩
  intro contents
  have possible : (weekendLoaded service filled highlight).next Enumeration.ascending
      HomeScreen.asciiSearch (pictures.answered contents) false ViewController.highlightSearch
      .highlightPressed = some (opening _ (HomeView.highlightPressed _ _)) := rfl
  refine ⟨_, possible, ?_⟩
  rw [only_photos_trap rfl true _ reached _ (fun _ => PhoneEvent.noConfusion) contents _ possible]
  have photo (r : Recipes) : Succeeds (setImage (pictures.answered contents) r.photo) ↔
      contents () = some true := by
    simp only [setImage, pictures, ImageLoading.answered, forceUnwrap_some, bind, Except.bind]
    cases contents () with
    | none => simp
    | some data => cases data <;> simp
  simp [pictured, weekendLoaded, afterLoad, ViewController.loaded, photo]

/-- The highlight of the weekend on the watch. -/
def weekendEvents : List (Occurrence Unit Bool) :=
  [.dataReceived weekend, .highlightPressed, .startRecipe LatestRecipe.connected, .deliver,
    .runBlock].map fun event => ⟨event, pictures.contents⟩

theorem weekend_reaches_watch : ∃ s, weekendApp.Run weekendEvents s ∧
    ((answers weekendEvents = [] ∧ s.details = none ∧ s.system.sent = [] ∧
        s.system.watch.steps = []) ∨
      ∃ snapshot parts, true = true ∧ answers weekendEvents = [snapshot] ∧
        snapshot.mapM (childPart Enumeration.ascending) = .ok parts ∧
        (∀ details, s.details = some details →
          ∃ r ∈ parts.flatten, Offered s r ∧ Shows details r) ∧
        (∀ r ∈ s.system.sent, r ∈ parts.flatten ∧ Offered s r) ∧
        (s.system.watch.steps = [] ∨
          ∃ r ∈ parts.flatten, Offered s r ∧ s.system.watch.steps = r.stepsOn .watch)) := by
  obtain ⟨service, filled, highlight, loads⟩ := weekend_loads
  have opened := Machine.Run.next _ (Machine.Run.next _ .start loads)
    (weekend_opens service filled highlight)
  let context := (sendToWatch highlight).bridged
  let after (system : WatchSystem) : PhoneApp Unit :=
    { weekendOpened service filled highlight with
      alert := some RecipesDetailsViewController.sucesso, system := system }
  have sends : weekendApp.step (weekendOpened service filled highlight)
      ⟨.startRecipe LatestRecipe.connected, pictures.contents⟩
      (after ⟨some context, [], .new, [highlight], []⟩) := rfl
  have delivers : weekendApp.step (after ⟨some context, [], .new, [highlight], []⟩)
      ⟨.deliver, pictures.contents⟩
      (after ⟨none, [context], .new, [highlight], []⟩) := rfl
  have presents : weekendApp.step (after ⟨none, [context], .new, [highlight], []⟩)
      ⟨.runBlock, pictures.contents⟩
      (after ⟨none, [], ⟨LatestRecipe.decoded context⟩, [highlight], [LatestRecipe.decoded context]⟩) :=
    rfl
  have run : weekendApp.Run weekendEvents _ := .next _ (.next _ (.next _ opened sends) delivers) presents
  exact ⟨_, run, watch_shows_offered_recipes true _ _ run⟩

end WatchAndSee.Guarantees.PhoneRuns
