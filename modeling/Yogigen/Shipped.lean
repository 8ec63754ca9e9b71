import Mathlib.Data.List.Sort
import Yogigen.Furnished
import Yogigen.Lifecycle

/-!
# The Rows that Come with the Program

The rows that `db/yogidb-inserts_pg.sql` inserts, and the server on a database with these rows,
in whatever order its load lists them.

## Main results

* `furnished_of_loads`: the tables have what the formats ask for.
* `shipped_server`: no order of the steps of the server breaks it, unless a call of the system
  fails.
-/

open Printf Owned Owned.Prog Supply Supply.Reader Transition

namespace Yogigen

/-- Verbs. -/
def verbRows : List ExpressionRow := [
  ⟨ascii "walk", ascii "walks", 0, 0⟩,
  ⟨ascii "talk", ascii "talks", 0, 3⟩,
  ⟨ascii "live", ascii "lives", 0, 1⟩,
  ⟨ascii "try", ascii "tries", 0, 1⟩,
  ⟨ascii "make", ascii "makes", 0, 0⟩,
  ⟨ascii "come", ascii "comes", 0, 0⟩,
  ⟨ascii "practice", ascii "practices", 0, 3⟩,
  ⟨ascii "love", ascii "loves", 0, 1⟩,
  ⟨ascii "impress", ascii "impresses", 0, 1⟩,
  ⟨ascii "get", ascii "gets", 0, 2⟩,
  ⟨ascii "belong", ascii "belongs", 0, 0⟩,
  ⟨ascii "sing", ascii "sings", 0, 0⟩,
  ⟨ascii "serve", ascii "serves", 0, 0⟩,
  ⟨ascii "appreciate", ascii "appreciates", 0, 0⟩,
  ⟨ascii "honor", ascii "honors", 0, 0⟩,
  ⟨ascii "bring", ascii "brings", 0, 0⟩,
  ⟨ascii "create", ascii "creates", 0, 0⟩,
  ⟨ascii "recognise", ascii "recognises", 0, 0⟩,
  ⟨ascii "bow", ascii "bows", 0, 0⟩,
  ⟨ascii "fill", ascii "fills", 0, 0⟩,
  ⟨ascii "guide", ascii "guides", 0, 0⟩,
  ⟨ascii "empty", ascii "empties", 0, 0⟩,
  ⟨ascii "share", ascii "shares", 0, 0⟩,
  ⟨ascii "speak", ascii "speaks", 0, 0⟩,
  ⟨ascii "think", ascii "thinks", 0, 0⟩]

/-- Adjectives. -/
def adjectiveRows : List ExpressionRow := [
  ⟨ascii "happy", ascii "happily", 1, 0⟩,
  ⟨ascii "beautiful", ascii "beautifully", 1, 0⟩,
  ⟨ascii "bountiful", ascii "bountifully", 1, 0⟩,
  ⟨ascii "blissful", ascii "blissfully", 1, 0⟩,
  ⟨ascii "compassionate", ascii "compassionately", 1, 0⟩,
  ⟨ascii "high", ascii "highly", 1, 0⟩,
  ⟨ascii "proud", ascii "proudly", 1, 0⟩,
  ⟨ascii "calm", ascii "calmly", 1, 0⟩,
  ⟨ascii "everlasting", ascii "everlastingly", 1, 1⟩,
  ⟨ascii "infinite", ascii "infinitely", 1, 1⟩,
  ⟨ascii "elevated", ascii "elevatedly", 1, 1⟩,
  ⟨ascii "straight", ascii "straightly", 1, 0⟩,
  ⟨ascii "simple", ascii "simply", 1, 0⟩,
  ⟨ascii "ultimate", ascii "ultimately", 1, 1⟩,
  ⟨ascii "serious", ascii "seriously", 1, 0⟩,
  ⟨ascii "honest", ascii "honestly", 1, 0⟩]

/-- Concepts. -/
def conceptRows : List ExpressionRow := [
  ⟨ascii "compassion", ascii "compassion", 2, 0⟩,
  ⟨ascii "love", ascii "love", 2, 0⟩,
  ⟨ascii "prosperity", ascii "prosperity", 2, 0⟩,
  ⟨ascii "peace of mind", ascii "peace of mind", 2, 0⟩,
  ⟨ascii "kindness", ascii "kindness", 2, 0⟩,
  ⟨ascii "gratitude", ascii "gratitude", 2, 0⟩,
  ⟨ascii "forgiveness", ascii "forgiveness", 2, 0⟩,
  ⟨ascii "happiness", ascii "happiness", 2, 0⟩,
  ⟨ascii "contentment", ascii "contentment", 2, 0⟩,
  ⟨ascii "strength", ascii "strength", 2, 0⟩,
  ⟨ascii "knowledge", ascii "knowledge", 2, 0⟩,
  ⟨ascii "wisdom", ascii "wisdom", 2, 0⟩,
  ⟨ascii "faith", ascii "faith", 2, 0⟩,
  ⟨ascii "joy", ascii "joy", 2, 0⟩,
  ⟨ascii "essence", ascii "essence", 2, 0⟩,
  ⟨ascii "success", ascii "success", 2, 0⟩,
  ⟨ascii "soul", ascii "the soul", 2, 0⟩,
  ⟨ascii "self", ascii "the self", 2, 0⟩,
  ⟨ascii "power", ascii "the power", 2, 0⟩,
  ⟨ascii "intuition", ascii "intuition", 2, 0⟩,
  ⟨ascii "greatness", ascii "greatness", 2, 0⟩,
  ⟨ascii "happiness", ascii "happiness", 2, 0⟩,
  ⟨ascii "life", ascii "the life", 2, 0⟩,
  ⟨ascii "experience", ascii "experience", 2, 0⟩,
  ⟨ascii "beauty", ascii "beauty", 2, 0⟩,
  ⟨ascii "fear", ascii "fear", 2, 0⟩,
  ⟨ascii "vengeance", ascii "vengeance", 2, 0⟩,
  ⟨ascii "peace", ascii "peace", 2, 0⟩,
  ⟨ascii "tranquility", ascii "tranquility", 2, 0⟩,
  ⟨ascii "harmony", ascii "harmony", 2, 0⟩,
  ⟨ascii "understanding", ascii "understanding", 2, 0⟩,
  ⟨ascii "truth", ascii "the truth", 2, 0⟩,
  ⟨ascii "grace", ascii "the grace", 2, 0⟩,
  ⟨ascii "bliss", ascii "bliss", 2, 0⟩,
  ⟨ascii "infinity", ascii "infinity", 2, 0⟩,
  ⟨ascii "trust", ascii "trust", 2, 0⟩,
  ⟨ascii "participation", ascii "participation", 2, 0⟩,
  ⟨ascii "reality", ascii "reality", 2, 0⟩,
  ⟨ascii "universe", ascii "the universe", 2, 0⟩]

/-- Objects. -/
def objectRows : List ExpressionRow := [
  ⟨ascii "person", ascii "people", 3, 0⟩,
  ⟨ascii "fountain", ascii "fountains", 3, 0⟩,
  ⟨ascii "heart", ascii "hearts", 3, 0⟩,
  ⟨ascii "question", ascii "questions", 3, 0⟩,
  ⟨ascii "thing", ascii "things", 3, 0⟩,
  ⟨ascii "limit", ascii "limits", 3, 0⟩,
  ⟨ascii "action", ascii "actions", 3, 1⟩,
  ⟨ascii "merit", ascii "merits", 3, 0⟩,
  ⟨ascii "piece", ascii "pieces", 3, 0⟩,
  ⟨ascii "infinity", ascii "infinities", 3, 1⟩,
  ⟨ascii "enemy", ascii "enemies", 3, 1⟩,
  ⟨ascii "friend", ascii "friends", 3, 0⟩,
  ⟨ascii "gift", ascii "gifts", 3, 0⟩,
  ⟨ascii "experience", ascii "experiences", 3, 1⟩,
  ⟨ascii "soul", ascii "souls", 3, 0⟩,
  ⟨ascii "achievement", ascii "achievements", 3, 1⟩,
  ⟨ascii "day", ascii "days", 3, 0⟩,
  ⟨ascii "source", ascii "sources", 3, 0⟩,
  ⟨ascii "victory", ascii "victories", 3, 0⟩,
  ⟨ascii "opportunity", ascii "opportunities", 3, 1⟩,
  ⟨ascii "power", ascii "powers", 3, 0⟩,
  ⟨ascii "ship", ascii "ships", 3, 0⟩,
  ⟨ascii "sail", ascii "sails", 3, 0⟩,
  ⟨ascii "river", ascii "rivers", 3, 0⟩,
  ⟨ascii "water", ascii "waters", 3, 0⟩,
  ⟨ascii "art", ascii "arts", 3, 1⟩,
  ⟨ascii "head", ascii "heads", 3, 0⟩,
  ⟨ascii "flow", ascii "flows", 3, 0⟩,
  ⟨ascii "anchor", ascii "anchors", 3, 1⟩,
  ⟨ascii "chance", ascii "chances", 3, 0⟩,
  ⟨ascii "reality", ascii "realities", 3, 0⟩,
  ⟨ascii "voice", ascii "voices", 3, 0⟩,
  ⟨ascii "smile", ascii "smiles", 3, 0⟩,
  ⟨ascii "law", ascii "laws", 3, 0⟩]

/-- Formats. -/
def formatRows : List FormatRow := [
  ⟨ascii "People who %s are %s.", 0x200, 2⟩,
  ⟨ascii "Walk %s, talk %s, live %s.", 0x30303, 3⟩,
  ⟨ascii "%s is the %s of %s.", 0x60604, 3⟩,
  ⟨ascii "Never %s to %s others, %s to %s yourself.", 0x68006800, 4⟩,
  ⟨ascii "%s is within us.", 0x4, 1⟩,
  ⟨ascii "%s is an experience of %s.", 0x2C04, 2⟩,
  ⟨ascii "Give %s, get %s.", 0x704, 2⟩,
  ⟨ascii "Give %s, get %s.", 0xC04, 2⟩,
  ⟨ascii "%s will make you %s.", 0x204, 2⟩,
  ⟨ascii "%s comes %s by %s.", 0x60604, 3⟩,
  ⟨ascii "%s has no %s. %s has no %s.", 0x3C142C04, 4⟩,
  ⟨ascii "An attitude of %s brings %s.", 0x2704, 2⟩,
  ⟨ascii "Practice %s, %s and %s.", 0x342C04, 3⟩,
  ⟨ascii "%s comes from %s.", 0x2C04, 2⟩,
  ⟨ascii "%s comes from %s.", 0x704, 2⟩,
  ⟨ascii "%s come from %s.", 0x507, 2⟩,
  ⟨ascii "Your %s is your own %s.", 0x2C04, 2⟩,
  ⟨ascii "Have %s in your %s and %s in your %s.", 0x2F2C2704, 4⟩,
  ⟨ascii "%s is the %s of %s.", 0x342C04, 3⟩,
  ⟨ascii "I am %s, I am %s, I am %s.", 0x322A02, 3⟩,
  ⟨ascii "Let %s come to you.", 0x7, 1⟩,
  ⟨ascii "Let %s come to you.", 0x4, 1⟩,
  ⟨ascii "Where there is %s, there are no %s.", 0x704, 2⟩,
  ⟨ascii "Where there is %s, there is no %s.", 0x2C04, 2⟩,
  ⟨ascii "Let your %s speak to others' %s.", 0x2706, 2⟩,
  ⟨ascii "%s is the highest %s.", 0x2C04, 2⟩,
  ⟨ascii "Your %s is not what you %s, it's what you %s.", 0x280004, 3⟩,
  ⟨ascii "Your %s is your best friend.", 0x4, 1⟩,
  ⟨ascii "%s from your %s.", 0x600, 2⟩,
  ⟨ascii "The art of %s is to %s all.", 0x6004, 2⟩,
  ⟨ascii "%s is a %s. %s is the %s.", 0x2D2EA604, 4⟩,
  ⟨ascii "There is no %s without %s.", 0x2C04, 2⟩,
  ⟨ascii "%s has no %s and no %s.", 0x342C04, 3⟩,
  ⟨ascii "%s yourself and %s your %s.", 0x60800, 3⟩,
  ⟨ascii "To be %s is the highest %s of %s.", 0x50602, 3⟩,
  ⟨ascii "May this %s bring you %s, %s and %s.", 0x352C0406, 4⟩,
  ⟨ascii "%s is %s.", 0x204, 2⟩,
  ⟨ascii "%s creates %s.", 0xD04, 2⟩,
  ⟨ascii "%s brings %s and %s.", 0x342C04, 3⟩,
  ⟨ascii "%s is a %s of %s and %s.", 0x342CA605, 4⟩,
  ⟨ascii "%s is a %s %s.", 0x6A204, 3⟩,
  ⟨ascii "Your greatest %s is %s.", 0x2D04, 2⟩,
  ⟨ascii "%s without %s is a %s without %s.", 0x2FA62C04, 4⟩,
  ⟨ascii "%s is the greatest %s.", 0x2C04, 2⟩,
  ⟨ascii "%s that you are %s.", 0x500, 2⟩,
  ⟨ascii "Our %s %s and our %s is %s with %s and %s.", 0x2C04022E0106, 6⟩,
  ⟨ascii "Let your %s guide you.", 0x6, 1⟩,
  ⟨ascii "You will always live %s if you live with your %s.", 0x602, 2⟩,
  ⟨ascii "%s is the %s of %s; your %s is requested.", 0x342C2604, 4⟩,
  ⟨ascii "%s will give you %s.", 0x2C04, 2⟩,
  ⟨ascii "%s, %s and %s are the %s of %s.", 0x3C07342C04, 5⟩,
  ⟨ascii "Life is a %s. Love is %s. Grace is %s.", 0x2D05A6, 3⟩,
  ⟨ascii "%s yourself and let %s fill you.", 0x500, 2⟩,
  ⟨ascii "%s to %s.", 0x800, 2⟩,
  ⟨ascii "The %s of your %s is %s.", 0x2C0406, 3⟩,
  ⟨ascii "%s is %s.", 0x204, 2⟩,
  ⟨ascii "%s %s.", 0x500, 2⟩,
  ⟨ascii "%s is in your %s.", 0x2C04, 2⟩,
  ⟨ascii "You don't need %s, you are the %s.", 0x404, 2⟩,
  ⟨ascii "Think %s and think %s.", 0x2B03, 2⟩]

/-- The database with these rows. -/
def shippedDb : Database where
  expressions := verbRows ++ (adjectiveRows ++ (conceptRows ++ objectRows))
  formats := formatRows

/-! ### A load -/

/-- The rows of a type, sorted by their flags. -/
def Database.sortedRows (db : Database) (type : ExprType) : List ExpressionRow :=
  (db.rows type).insertionSort fun r r' => r.flags ≤ r'.flags

/-- What a load leaves that lists the rows so. -/
def Database.load (db : Database) : YogiGen where
  verbs := .ofRows ((db.sortedRows .verb).map readExpr)
  adjs := .ofRows ((db.sortedRows .adjective).map readExpr)
  cepts := .ofRows ((db.sortedRows .concept).map readExpr)
  objs := .ofRows ((db.sortedRows .object).map readExpr)
  formats := .ofRows (db.formats.map readFrmt)
  conn := blank.conn

/-- A database is loaded in the order of its rows. -/
theorem loads_load (db : Database) : Loads db db.load := by
  refine ⟨fun type => ⟨db.sortedRows type, List.perm_insertionSort _ _, ?_, ?_⟩,
    db.formats, .refl _, rfl⟩
  · have : Std.Total fun r r' : ExpressionRow => r.flags ≤ r'.flags :=
      ⟨fun r r' => Int32.le_total r.flags r'.flags⟩
    have : IsTrans ExpressionRow fun r r' => r.flags ≤ r'.flags :=
      ⟨fun _ _ _ => Int32.le_trans⟩
    exact List.pairwise_insertionSort _ _
  · cases type with
    | verb | adjective | concept | object => rfl

/-! ### The tables -/

/-- The shipped rows furnish every format. -/
theorem furnished_load : Furnished shippedDb.load := by
  decide +kernel

/-- **The rows furnish the formats.** -/
theorem furnished_of_loads {y : YogiGen} (h : Loads shippedDb y) : Furnished y := by
  refine (loads_load shippedDb).furnished h (fun type => ?_) (by decide +kernel) furnished_load
  exact (List.length_filter_le _ _).trans_lt (by decide +kernel)

/-- A phrase of the rows, with an apostrophe. -/
def joyPhrase : Bytes :=
  ascii "You don't need joy, you are the joy."

/-- The draws make the phrase. -/
def makes (y : YogiGen) (draws : List (Option UInt16)) (phrase : Bytes) : Bool :=
  match (generate (.loaded y)).run draws with
  | .done (some out, _) [] => out == phrase
  | _ => false

/-- Draws that make a phrase are those of a call. -/
theorem exists_calls_of_makes {y : YogiGen} {draws : List (Option UInt16)} {phrase : Bytes}
    (h : makes y draws phrase = true) : ∃ o, Calls (.loaded y) ⟨draws, some phrase⟩ o := by
  unfold makes at h
  split at h
  · next out o hrun =>
      obtain rfl := beq_iff_eq.mp h
      exact ⟨o, yields_iff_run.mpr hrun⟩
  · cases h

/-- This phrase is made of the format of its text and of "joy". -/
theorem makes_joy : makes shippedDb.load [some 58, some 13] joyPhrase = true := by
  decide +kernel

/-- A call whose first draw fails. -/
theorem calls_refused {o : Object} {y : YogiGen} (hc : o.contents = some y) :
    Calls o ⟨[none], none⟩ ⟨none, o.closes + 1⟩ := by
  refine yields_iff_run.mpr ?_
  simp only [generate, hc, yogiGenClose]
  rfl

/-- A phrase is made of the rows, and the next draw fails. -/
theorem furnished_null_iff_joy :
    ∃ o, Run Calls (.loaded shippedDb.load)
        [(⟨[some 58, some 13], some joyPhrase⟩, o), (⟨[none], none⟩, ⟨none, o.closes + 1⟩)] ∧
      ∀ q ∈ [(⟨[some 58, some 13], some joyPhrase⟩, o),
          ((⟨[none], none⟩, ⟨none, o.closes + 1⟩) : GenCall × Object)],
        q.1.phrase = none ↔ none ∈ q.1.draws := by
  obtain ⟨o, hcall⟩ := exists_calls_of_makes makes_joy
  obtain ⟨y, -, ⟨out, y', -, ho, -⟩ | ⟨hnull, -⟩⟩ := generate_cases hcall
  · have hrun : Run Calls (.loaded shippedDb.load)
        [(⟨[some 58, some 13], some joyPhrase⟩, o), (⟨[none], none⟩, ⟨none, o.closes + 1⟩)] :=
      .cons hcall (.cons (calls_refused (o := o) (y := y') (by rw [ho])) (.nil _))
    exact ⟨o, hrun, furnished_null_iff furnished_load hrun⟩
  · cases hnull

/-! ### The server -/

/-- A call of the system fails: one before the first template, or `getrandom`. -/
def Happening.Refused : Happening → Prop
  | .main pc ok => pc.IsEarly ∧ ok = false
  | .leave _ call _ => none ∈ call.draws
  | _ => False

namespace Process

variable {b : Build} {y : YogiGen}

/-- A run that is not broken, with an object that is stocked or has been released. -/
def Supplied (y : YogiGen) (s : Except Breach Process) : Prop :=
  Intact y s ∧ ∃ o, Shows y s o ∧ Stocked o

/-- Calls on a stocked object fail only with `getrandom`. -/
theorem Supplied.not_fatal {s s' : Except Breach Process} {l : Happening} (h : Supplied y s)
    (hrefused : ¬ l.Refused) (hstep : Step b y s l s') : ¬ l.Fatal := by
  obtain ⟨⟨p, rfl, hinv, hsound⟩, o, hshows, hstocked⟩ := h
  have hcall : ∀ {v call m o₁ o'}, ¬ (Happening.leave v call m).Refused →
      p.yogen = .to (some o₁) → Calls o₁ call o' → ¬ (Happening.leave v call m).Fatal := by
    intro v call m o₁ o' hrefused hyogen hcalls hnull
    have hobject := (hshows p rfl).2
    rw [object_of_yogen hyogen] at hobject
    obtain rfl := hobject.resolve_right fun hdead => not_calls_released hdead hcalls
    exact hrefused ((hstocked.call hcalls).1.mp hnull)
  cases hstep with
  | main _ => exact hrefused
  | signal | arrive | serve | enter => exact fun h => h
  | leave _ _ hyogen hcalls _ _ _ => exact hcall hrefused hyogen hcalls
  | race _ hyogen hcalls _ _ => exact hcall hrefused hyogen hcalls

/-- What keeps a run on stocked tables from breaking. -/
def Served (s : Except Breach Process) (l : Happening) : Prop :=
  (¬ l.Refused ∧ ¬ l.Unread ∧ ¬ l.Careless) ∧ Apart s l

/-- Every step that is served keeps the tables supplied. -/
theorem Supplied.step {s s' : Except Breach Process} {l : Happening} (h : Supplied y s)
    (hserved : Served s l) (hstep : Step b y s l s') : Supplied y s' := by
  obtain ⟨⟨hrefused, hread, hcareful⟩, hapart⟩ := hserved
  have hfatal := h.not_fatal hrefused hstep
  obtain ⟨hintact, o, hshows, hstocked⟩ := h
  refine ⟨hintact.step ⟨⟨hfatal, hread, hcareful⟩, hapart⟩ hstep, ?_⟩
  rcases hshows.step hstep with ⟨-, hshows'⟩ | ⟨q, -, hcalls, hshows'⟩
  · exact ⟨o, hshows', hstocked⟩
  · exact ⟨q.2, hshows', (hstocked.call hcalls).2⟩

/-- **The server on the shipped rows** does not break in any order of its steps, however long it
runs, unless a call of the system fails, a template cannot be read, a request is careless with
its strings, or calls of `YogiGen_generate` that meet correct an article; and whatever its
object has become, a call of `YogiGen_generate` divides by no zero and stays in its arrays. -/
theorem shipped_server (h : Loads shippedDb y) {trace : List (Happening × Except Breach Process)}
    (hrun : Run (Step b y) (.ok start) trace)
    (hgood : ∀ q ∈ trace, ¬ q.1.Refused ∧ ¬ q.1.Unread ∧ ¬ q.1.Careless)
    (hapart : Guarded Apart (.ok start) trace) :
    ∀ q ∈ trace, ∃ p, q.2 = .ok p ∧
      ∀ y', p.yogen = .to (some (.loaded y')) → (generate (.loaded y')).Faultless := by
  have hstart : Supplied y (.ok start) := by
    refine ⟨intact_start y, .loaded y, ?_, ?_⟩
    · rintro _ ⟨⟩
      exact ⟨inv_start y, .inl rfl⟩
    · rintro _ ⟨⟩
      exact furnished_of_loads h
  have hguard : Guarded Served (.ok start) trace :=
    ((guarded_label fun l : Happening => ¬ l.Refused ∧ ¬ l.Unread ∧ ¬ l.Careless).mpr hgood).and
      hapart
  intro q hq
  obtain ⟨⟨p, hp, -⟩, o, hshows, hstocked⟩ := hrun.invariant
    (fun _ _ _ hs hl hstep => Supplied.step hs hl hstep) hstart hguard q hq
  refine ⟨p, hp, fun y' hyogen => ?_⟩
  have hobject := (hshows p hp).2
  rw [object_of_yogen hyogen] at hobject
  obtain rfl := hobject.resolve_right (Option.some_ne_none y')
  exact (hstocked y' rfl).faultless

/-- A visitor opens the front page. -/
def frontVisit : Visit :=
  ⟨.frontpage, ⟨ascii "GET", none⟩, ascii "/"⟩

/-- A phrase is made of the rows while the front page is sent to another visitor. -/
def joyRun (o : Object) : List (Happening × Except Breach Process) :=
  boot ⟨false, false⟩ shippedDb.load ++
    [(.arrive genVisit, .ok (busy shippedDb.load [genVisit] [] false .loop)),
      (.enter genVisit, .ok (busy shippedDb.load [] [genVisit] false .loop)),
      (.arrive frontVisit, .ok (busy shippedDb.load [frontVisit] [genVisit] false .loop)),
      (.serve frontVisit meetsNothing, .ok (busy shippedDb.load [] [genVisit] false .loop)),
      (.leave genVisit ⟨[some 58, some 13], some joyPhrase⟩ (meetsPhrase joyPhrase),
        .ok { (busy shippedDb.load [] [genVisit] false .loop).left genVisit o with
          strings := List.replicate 4 none })]

/-- The run is one of the server. -/
theorem run_joyRun {o : Object}
    (hcall : Calls (.loaded shippedDb.load) ⟨[some 58, some 13], some joyPhrase⟩ o) :
    Run (Step ⟨false, false⟩ shippedDb.load) (.ok start) (joyRun o) := by
  have hget : isGet genVisit.request = true := by decide +kernel
  refine (run_boot _ _).append ?_
  rw [final_boot]
  refine .cons (.arrive rfl (by decide)) (.cons ?_ (.cons (.arrive rfl (by decide)) (.cons ?_
    (.cons ?_ (.nil _)))))
  · exact Step.enter (p := busy shippedDb.load [genVisit] [] false .loop) List.mem_cons_self
      ⟨rfl, hget⟩
  · refine Step.serve (p := busy shippedDb.load [frontVisit] [genVisit] false .loop) (n := 0)
      List.mem_cons_self (fun h => by cases h.1) ?_
    have hpage : frontpageRequestHandler frontVisit.request none =
        ⟨200, .text (format indexTemplate [.str (buttonText none)]), false⟩ := if_pos hget
    have hrun : (callHandler ⟨false, false⟩ 0 frontVisit.request frontVisit.localUri meetsNothing
        .frontpage).run [] =
          .done ⟨200, .text (format indexTemplate [.str (buttonText none)]), false⟩ [] := by
      rw [callHandler, meetsNothing, hpage]
      rfl
    exact serve_done (p := busy shippedDb.load [] [genVisit] false .loop) (v := frontVisit) hrun rfl
  · exact Step.leave (p := busy shippedDb.load [] [genVisit] false .loop) (n := 0)
      List.mem_cons_self ⟨rfl, hget⟩ rfl hcall rfl (fun h => by cases h)
      (serve_phrase ⟨rfl, hget⟩ rfl rfl rfl)

/-- The front page and a phrase, after the whole of the start. -/
theorem shipped_server_joy :
    ∃ o, Run (Step ⟨false, false⟩ shippedDb.load) (.ok start) (joyRun o) ∧
      ∀ q ∈ joyRun o, ∃ p, q.2 = .ok p ∧
        ∀ y', p.yogen = .to (some (.loaded y')) → (generate (.loaded y')).Faultless := by
  obtain ⟨o, hcall⟩ := exists_calls_of_makes makes_joy
  refine ⟨o, run_joyRun hcall, shipped_server (loads_load shippedDb) (run_joyRun hcall) ?_ ?_⟩
  · intro q hq
    rcases List.mem_append.mp hq with hq | hq
    · obtain ⟨pc, hlabel⟩ := mem_mainRun hq
      rw [hlabel]
      cases pc with
      | _ => simp [Happening.Refused, Happening.Unread, Happening.Careless]
    · simp only [List.mem_cons, List.not_mem_nil, or_false] at hq
      rcases hq with rfl | rfl | rfl | rfl | rfl
      all_goals simp [Happening.Refused, Happening.Unread, Happening.Careless, Careful, frontVisit]
  · refine (guarded_apart_mainRun _ _ _ _).append ?_
    rw [← boot, final_boot]
    refine ⟨apart_of_stay (by simp), apart_of_stay (by simp), apart_of_stay (by simp),
      apart_of_stay (by simp), ?_, trivial⟩
    intro p v call m o hp _ hcrowded
    obtain rfl := Except.ok.inj hp
    cases hcrowded

end Process

end Yogigen
