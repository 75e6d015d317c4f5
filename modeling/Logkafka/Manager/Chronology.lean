/-
# `Logkafka.Manager.Chronology` — files in the order of time

`updateTaskPaths` compares paths as strings: of two files of a pattern the one
whose path is smaller is taken for the older one.  That is right if the
conversions of the pattern are numbers of a fixed width, the more significant
ones first:

    %Y            year      0        %H  %k    hour      3
    %m            month     1        %M        minute    4
    %d  %e        day       2        %S        second    5

and `%F`, `%R`, `%T` and `%X`, which stand for some of them (`blocks`).  What is
shown twice does no harm, and neither does what stands between.

For such a pattern, and years of four digits, the order of the paths is that of
the times if and only if each field stands behind those that are more
significant (`expandPath_collates_iff`): "/log.%m%Y" goes back in January, and
so does "/log.%Y%d" in every month.  And then a task hands the files of its
pattern to watchers in the order of time, none of them twice (`handed_in_time`).
-/
import Logkafka.Collation
import Logkafka.Manager.CatchUp

namespace Logkafka

open Collation

namespace Strftime

/-! ## The clock

What a pattern shows of the time, as blocks that each stand for one field of the
clock, with nothing of the text in them.
-/

/-- The fields from the year on, the more significant ones first. -/
def Tm.clock (tm : Tm) : List ℕ :=
  [tm.year.toNat, tm.mon.val, tm.mday, tm.hour, tm.min, tm.sec]

/-- The ranges of the fields, in the years of four digits. -/
structure Tm.Dated (tm : Tm) : Prop where
  year : 1000 ≤ tm.year ∧ tm.year < 10000
  mday : 1 ≤ tm.mday ∧ tm.mday ≤ 31
  hour : tm.hour < 24
  min : tm.min < 60
  sec : tm.sec ≤ 60

/-- The conversions of a fixed width: what they show of the clock, if anything. -/
def shown : List (Char × Option ℕ) :=
  [ ('Y', some 0), ('m', some 1), ('d', some 2), ('e', some 2), ('H', some 3), ('k', some 3),
    ('M', some 4), ('S', some 5), ('n', none), ('t', none) ]

/-- The conversion of one field. -/
def fieldBlock (c : Byte) : Option (Block Tm Byte) :=
  (lookup c shown).map fun place => ⟨fun tm => (field tm c).getD [], place⟩

def literal (s : Str) : Block Tm Byte := ⟨fun _ => s, none⟩

/-- The blocks of a format of fields, if they all have a fixed width. -/
def fillBlocks : Str → Option (List (Block Tm Byte))
  | [] => some []
  | [c] => some [literal [c]]
  | c :: d :: rest =>
      if c = 37 then (fieldBlock d).bind fun b => (fillBlocks rest).map (b :: ·)
      else (fillBlocks (d :: rest)).map (literal [c] :: ·)

def Directive.blocks : Directive → Option (List (Block Tm Byte))
  | .ordinary c => some [literal [c]]
  | .copied s => some [literal s]
  | .conversion _ c =>
      if (lookup c fields).isSome then (fieldBlock c).map fun b => [b]
      else (lookup c formats).bind fun f => fillBlocks (ascii f)

def directiveBlocks : List Directive → Option (List (Block Tm Byte))
  | [] => some []
  | d :: ds => d.blocks.bind fun bs => (directiveBlocks ds).map (bs ++ ·)

/-- The blocks of a pattern, if they all have a fixed width. -/
def blocks (P : Str) : Option (List (Block Tm Byte)) := directiveBlocks (directives P)

/-- How many fields of the clock the pattern shows, if it shows them in order. -/
def resolution (P : Str) : Option ℕ := (blocks P).bind (reach 0)

variable {tm tm' : Tm} {P s : Str} {c : Byte} {b : Block Tm Byte} {bs : List (Block Tm Byte)}
  {d : Directive} {k : ℕ}

/-! ## The text of the blocks -/

theorem fieldBlock_text (h : fieldBlock c = some b) (tm : Tm) :
    b.text tm = (field tm c).getD [] := by
  obtain ⟨place, -, rfl⟩ := Option.map_eq_some_iff.mp h
  rfl

theorem fillBlocks_text (h : fillBlocks s = some bs) (tm : Tm) : text bs tm = fill tm s := by
  induction s using fill.induct generalizing bs with
  | case1 =>
      obtain rfl := Option.some.inj h
      rfl
  | case2 c =>
      obtain rfl := Option.some.inj h
      rfl
  | case3 d rest ih =>
      rw [fillBlocks, if_pos rfl] at h
      obtain ⟨b, hb, h⟩ := Option.bind_eq_some_iff.mp h
      obtain ⟨bs, hbs, rfl⟩ := Option.map_eq_some_iff.mp h
      rw [text_cons, fill, if_pos rfl, ih hbs, fieldBlock_text hb]
  | case4 c d rest hc ih =>
      rw [fillBlocks, if_neg hc] at h
      obtain ⟨bs, hbs, rfl⟩ := Option.map_eq_some_iff.mp h
      rw [text_cons, fill, if_neg hc, ih hbs]
      rfl

theorem Directive.blocks_text (h : d.blocks = some bs) (tm : Tm) : text bs tm = d.expand tm := by
  cases d with
  | ordinary c =>
      obtain rfl := Option.some.inj h
      rfl
  | copied s =>
      obtain rfl := Option.some.inj h
      exact List.append_nil s
  | conversion modifier c =>
      rw [Directive.blocks] at h
      show _ = convert tm c
      unfold convert
      split at h
      · next hfield =>
          obtain ⟨b, hb, rfl⟩ := Option.map_eq_some_iff.mp h
          obtain ⟨f, hf⟩ := Option.isSome_iff_exists.mp hfield
          have hsome : field tm c = some (f tm) := by rw [field, hf]; rfl
          rw [text_cons, text_nil, List.append_nil, fieldBlock_text hb, hsome]
          rfl
      · next hfield =>
          obtain ⟨f, hf, h⟩ := Option.bind_eq_some_iff.mp h
          have hnone : field tm c = none := by
            rw [field, Option.not_isSome_iff_eq_none.mp hfield]
            rfl
          rw [fillBlocks_text h, hnone, hf]
          rfl

theorem blocks_text (h : blocks P = some bs) (tm : Tm) : text bs tm = strftime tm P := by
  unfold strftime
  unfold blocks at h
  generalize directives P = ds at h ⊢
  induction ds generalizing bs with
  | nil =>
      obtain rfl := Option.some.inj h
      rfl
  | cons d ds ih =>
      obtain ⟨bs, hbs, h⟩ := Option.bind_eq_some_iff.mp h
      obtain ⟨rest, hrest, rfl⟩ := Option.map_eq_some_iff.mp h
      rw [text_append, Directive.blocks_text hbs, ih hrest]
      rfl

/-! ## Numbers of a fixed width

Of numbers printed in one width the smaller one sorts first, whether it is filled
up with zeros or with a blank: a blank sorts before every digit.
-/

theorem digit_lt_digit (d e : ℕ) (hlt : d < e) (he : e < dec.base) :
    dec.digit d < dec.digit e := by
  have hall : ∀ e < 10, ∀ d < e, dec.digit d < dec.digit e := by decide
  exact hall e he d hlt

theorem fixed_lt_iff {w m n : ℕ} (hm : m < 10 ^ w) (hn : n < 10 ^ w) :
    dec.fixed w m < dec.fixed w n ↔ m < n :=
  fixed_lt_fixed_iff dec digit_lt_digit hm hn

/-- A number of `w` digits. -/
theorem digits_eq_fixed {w n : ℕ} (hn : n < 10 ^ w) (hlow : ∀ v, w = v + 1 → 10 ^ v ≤ n) :
    ((Nat.digits 10 n).map dec.digit).reverse = dec.fixed w n := by
  induction w generalizing n with
  | zero =>
      obtain rfl : n = 0 := by simpa using hn
      rfl
  | succ w ih =>
      have hlow := hlow w rfl
      have hpos : 0 < n := lt_of_lt_of_le (Nat.pow_pos (by decide)) hlow
      have hdiv := ih (n := n / 10) (by rw [pow_succ] at hn; omega) fun v hv => by
        subst hv
        rw [pow_succ] at hlow
        omega
      rw [Nat.digits_def' (by decide) hpos, List.map_cons, List.reverse_cons, hdiv]
      rfl

theorem int2Str_year (h : tm.Dated) : int2Str tm.year = dec.fixed 4 tm.year.toNat := by
  obtain ⟨hlow, hhigh⟩ := h.year
  have habs : tm.year.natAbs = tm.year.toNat := by omega
  rw [int2Str, if_neg (by omega), decText, if_neg (by omega), habs]
  exact digits_eq_fixed (by omega) fun v hv => by
    obtain rfl : v = 3 := by omega
    omega

@[simp] theorem length_blanked (n : ℕ) : (blanked n).length = 2 := by
  unfold blanked
  split <;> simp

theorem blanked_lt_iff {m n : ℕ} (hm : m < 100) (hn : n < 100) :
    blanked m < blanked n ↔ m < n := by
  have hfirst {k : ℕ} : dec.fixed 2 k = dec.digit (k / 10 % 10) :: dec.fixed 1 k := rfl
  have hblank (k : ℕ) : 32 < dec.digit (k / 10 % 10) := by
    have hk : k / 10 % 10 < 10 := Nat.mod_lt _ (by decide)
    revert hk
    generalize k / 10 % 10 = d
    revert d
    decide
  unfold blanked
  split
  · next hm =>
      split
      · next hn =>
          rw [List.cons_lt_cons_iff, fixed_lt_iff (by omega) (by omega)]
          simp
      · rw [hfirst]
        exact iff_of_true (List.Lex.rel (hblank n)) (by omega)
  · split
    · rw [hfirst]
      refine iff_of_false (fun hlt => ?_) (by omega)
      exact hlt.asymm (List.Lex.rel (hblank m))
    · exact fixed_lt_iff (by omega) (by omega)

/-! ## The conversions

Each conversion of `shown` once.  A conversion that stands for a format is the
blocks of that format, and the rest follows by induction on the format.
-/

theorem shows_literal (s : Str) : (literal s).Shows Tm.Dated Tm.clock where
  length _ _ _ _ := rfl
  fixed _ _ _ _ _ := rfl
  value i h := by cases h
  sorts i h := by cases h

/-- A text of `w` characters that sorts as the value of the clock. -/
theorem shows_number {text : Tm → Str} {value : Tm → ℕ} {i : ℕ} (w : ℕ)
    (hvalue : ∀ tm, tm.clock[i]? = some (value tm))
    (hlength : ∀ tm, tm.Dated → (text tm).length = w)
    (hlt : ∀ tm tm', tm.Dated → tm'.Dated → (text tm < text tm' ↔ value tm < value tm')) :
    Block.Shows Tm.Dated Tm.clock ⟨text, some i⟩ where
  length tm tm' h h' := (hlength tm h).trans (hlength tm' h').symm
  fixed h := by cases h
  value j hj tm _ := by
    obtain rfl := Option.some.inj hj
    exact ⟨_, hvalue tm⟩
  sorts j hj tm tm' x x' h h' hx hx' := by
    obtain rfl := Option.some.inj hj
    obtain rfl := Option.some.inj ((hvalue tm).symm.trans hx)
    obtain rfl := Option.some.inj ((hvalue tm').symm.trans hx')
    exact hlt tm tm' h h'

/-- Two digits. -/
theorem shows_fixed {value : Tm → ℕ} {i : ℕ} (hvalue : ∀ tm, tm.clock[i]? = some (value tm))
    (hhigh : ∀ tm, tm.Dated → value tm < 100) :
    Block.Shows Tm.Dated Tm.clock ⟨fun tm => dec.fixed 2 (value tm), some i⟩ :=
  shows_number 2 hvalue (fun _ _ => dec.length_fixed 2 _) fun tm tm' h h' =>
    fixed_lt_iff (hhigh tm h) (hhigh tm' h')

theorem shows_blanked {value : Tm → ℕ} {i : ℕ} (hvalue : ∀ tm, tm.clock[i]? = some (value tm))
    (hhigh : ∀ tm, tm.Dated → value tm < 100) :
    Block.Shows Tm.Dated Tm.clock ⟨fun tm => blanked (value tm), some i⟩ :=
  shows_number 2 hvalue (fun _ _ => length_blanked _) fun tm tm' h h' =>
    blanked_lt_iff (hhigh tm h) (hhigh tm' h')

theorem shows_year : Block.Shows Tm.Dated Tm.clock ⟨fun tm => int2Str tm.year, some 0⟩ :=
  shows_number 4 (fun _ => rfl) (fun tm h => by rw [int2Str_year h, dec.length_fixed])
    fun tm tm' h h' => by
      have hy := h.year
      have hy' := h'.year
      rw [int2Str_year h, int2Str_year h', fixed_lt_iff (by omega) (by omega)]

theorem shows_month :
    Block.Shows Tm.Dated Tm.clock ⟨fun tm => dec.fixed 2 (tm.mon.val + 1), some 1⟩ :=
  shows_number 2 (fun _ => rfl) (fun _ _ => dec.length_fixed 2 _) fun tm tm' _ _ => by
    rw [fixed_lt_iff (by omega) (by omega)]
    omega

/-- What the conversions of `shown` show. -/
theorem shows_of_mem_shown : ∀ e ∈ shown, Block.Shows Tm.Dated Tm.clock
    ⟨fun tm => (field tm (UInt8.ofNat e.1.toNat)).getD [], e.2⟩ := by
  have hday (tm : Tm) (h : tm.Dated) : tm.mday < 100 := by have := h.mday; omega
  have hhour (tm : Tm) (h : tm.Dated) : tm.hour < 100 := by have := h.hour; omega
  simp only [shown, List.forall_mem_cons, List.not_mem_nil, false_implies, implies_true, and_true]
  refine ⟨shows_year, shows_month, shows_fixed (fun _ => rfl) hday,
    shows_blanked (fun _ => rfl) hday, shows_fixed (fun _ => rfl) hhour,
    shows_blanked (fun _ => rfl) hhour, shows_fixed (fun _ => rfl) fun tm h => ?_,
    shows_fixed (fun _ => rfl) fun tm h => ?_, shows_literal [10], shows_literal [9]⟩
  · have := h.min
    omega
  · have := h.sec
    omega

/-- A block of a field of the clock, or of none. -/
structure OfClock (b : Block Tm Byte) : Prop where
  shows : b.Shows Tm.Dated Tm.clock
  place : ∀ i, b.place = some i → i < 6

theorem ofClock_literal (s : Str) : OfClock (literal s) where
  shows := shows_literal s
  place i h := by cases h

theorem ofClock_fieldBlock (h : fieldBlock c = some b) : OfClock b := by
  obtain ⟨place, hplace, rfl⟩ := Option.map_eq_some_iff.mp h
  obtain ⟨e, he, rfl, rfl⟩ := mem_of_lookup hplace
  have hall : ∀ e ∈ shown, ∀ i ∈ e.2, i < 6 := by decide
  exact ⟨shows_of_mem_shown e he, hall e he⟩

theorem ofClock_fillBlocks (h : fillBlocks s = some bs) : ∀ b ∈ bs, OfClock b := by
  induction s using fill.induct generalizing bs with
  | case1 =>
      obtain rfl := Option.some.inj h
      simp
  | case2 c =>
      obtain rfl := Option.some.inj h
      simpa using ofClock_literal [c]
  | case3 d rest ih =>
      rw [fillBlocks, if_pos rfl] at h
      obtain ⟨b, hb, h⟩ := Option.bind_eq_some_iff.mp h
      obtain ⟨bs, hbs, rfl⟩ := Option.map_eq_some_iff.mp h
      exact List.forall_mem_cons.mpr ⟨ofClock_fieldBlock hb, ih hbs⟩
  | case4 c d rest hc ih =>
      rw [fillBlocks, if_neg hc] at h
      obtain ⟨bs, hbs, rfl⟩ := Option.map_eq_some_iff.mp h
      exact List.forall_mem_cons.mpr ⟨ofClock_literal [c], ih hbs⟩

theorem ofClock_directive (h : d.blocks = some bs) : ∀ b ∈ bs, OfClock b := by
  cases d with
  | ordinary c =>
      obtain rfl := Option.some.inj h
      simpa using ofClock_literal [c]
  | copied s =>
      obtain rfl := Option.some.inj h
      simpa using ofClock_literal s
  | conversion modifier c =>
      rw [Directive.blocks] at h
      split at h
      · obtain ⟨b, hb, rfl⟩ := Option.map_eq_some_iff.mp h
        simpa using ofClock_fieldBlock hb
      · obtain ⟨f, -, h⟩ := Option.bind_eq_some_iff.mp h
        exact ofClock_fillBlocks h

theorem ofClock_blocks (h : blocks P = some bs) : ∀ b ∈ bs, OfClock b := by
  unfold blocks at h
  generalize directives P = ds at h
  induction ds generalizing bs with
  | nil =>
      obtain rfl := Option.some.inj h
      simp
  | cons d ds ih =>
      obtain ⟨bs, hbs, h⟩ := Option.bind_eq_some_iff.mp h
      obtain ⟨rest, hrest, rfl⟩ := Option.map_eq_some_iff.mp h
      exact List.forall_mem_append.mpr ⟨ofClock_directive hbs, ih hrest⟩

/-! ## Fields apart

For the other direction each field of the clock needs two times that differ in it
alone, or that go the other way in a less significant one.
-/

theorem february_lt : 1 < 12 := by decide

theorem january_lt : 0 < 12 := by decide

theorem utc_ne : ascii "UTC" ≠ [] := by decide

/-- The beginning of 2000, but for one field, which is one more. -/
def oneOn (k : ℕ) : Tm where
  sec := if k = 5 then 1 else 0
  min := if k = 4 then 1 else 0
  hour := if k = 3 then 1 else 0
  mday := if k = 2 then 2 else 1
  mon := if k = 1 then ⟨1, february_lt⟩ else ⟨0, january_lt⟩
  year := if k = 0 then 2001 else 2000
  wday := Fin.last 6
  yday := 0
  gmtoff := 0
  zone := ascii "UTC"
  epoch := 946684800
  zone_ne := utc_ne
  zone_chars := PathQueue.utc_chars

theorem dated_oneOn (k : ℕ) : (oneOn k).Dated where
  year := by unfold oneOn; dsimp only; split <;> omega
  mday := by unfold oneOn; dsimp only; split <;> omega
  hour := by unfold oneOn; dsimp only; split <;> omega
  min := by unfold oneOn; dsimp only; split <;> omega
  sec := by unfold oneOn; dsimp only; split <;> omega

theorem clock_value {i : ℕ} (tm : Tm) (hi : i < 6) : tm.clock[i]? = some (tm.clock.getD i 0) := by
  rw [List.getD_eq_getElem?_getD, List.getElem?_eq_getElem (show i < tm.clock.length from hi)]
  rfl

theorem varied_clock : Varied Tm.Dated Tm.clock 6 := by
  intro i j hij hj
  have hall : ∀ j < 6, ∀ i < j, (oneOn j).clock.take i = (oneOn i).clock.take i ∧
      (oneOn j).clock.getD i 0 < (oneOn i).clock.getD i 0 ∧
      (oneOn i).clock.getD j 0 < (oneOn j).clock.getD j 0 := by decide
  obtain ⟨hsame, hlt, hgt⟩ := hall j hj i hij
  exact ⟨oneOn j, oneOn i, dated_oneOn j, dated_oneOn i, hsame,
    ⟨_, _, clock_value _ (hij.trans hj), clock_value _ (hij.trans hj), hlt⟩,
    _, _, clock_value _ hj, clock_value _ hj, hgt⟩

/-! ## The order of the expansions

`expandPath` leaves the pattern as it is where `outstr` is too small, so that the
length of an expansion has to be the same at all times.
-/

/-- There is room in `outstr` for the pattern at every time. -/
def Roomy (P : Str) : Prop := ∀ tm : Tm, tm.Dated → (strftime tm P).length ≤ 4096

/-- An expansion has one length at all times. -/
theorem length_strftime (hbs : blocks P = some bs) (h : tm.Dated) (h' : tm'.Dated) :
    (strftime tm P).length = (strftime tm' P).length := by
  rw [← blocks_text hbs, ← blocks_text hbs]
  exact length_text (fun b hb => (ofClock_blocks hbs b hb).shows) h h'

theorem roomy_of_one (hfixed : (blocks P).isSome) (h : tm.Dated)
    (hlength : (strftime tm P).length ≤ 4096) : Roomy P := by
  obtain ⟨bs, hbs⟩ := Option.isSome_iff_exists.mp hfixed
  intro tm' h'
  rwa [length_strftime hbs h' h]

/-- As the pattern is expanded, or as it is not. -/
theorem expandPath_lt_iff_strftime (hbs : blocks P = some bs) (hroom : Roomy P) (h : tm.Dated)
    (h' : tm'.Dated) :
    expandPath tm P < expandPath tm' P ↔ strftime tm P < strftime tm' P := by
  have hlength := length_strftime hbs h h'
  have hexpand {t : Tm} (ht : t.Dated) :
      expandPath t P = if strftime t P = [] then P else strftime t P := by
    unfold expandPath
    have := hroom t ht
    simp [not_lt.mpr this]
  rw [hexpand h, hexpand h']
  by_cases hnil : strftime tm P = []
  · have hnil' : strftime tm' P = [] := by
      rw [hnil] at hlength
      exact List.length_eq_zero_iff.mp hlength.symm
    simp [hnil, hnil']
  · have hnil' : strftime tm' P ≠ [] := fun hnil' => by
      rw [hnil'] at hlength
      exact hnil (List.length_eq_zero_iff.mp hlength)
    rw [if_neg hnil, if_neg hnil']

theorem expandPath_lt_iff (hroom : Roomy P) (hk : resolution P = some k) (h : tm.Dated)
    (h' : tm'.Dated) :
    expandPath tm P < expandPath tm' P ↔ tm.clock.take k < tm'.clock.take k := by
  obtain ⟨bs, hbs, hreach⟩ := Option.bind_eq_some_iff.mp hk
  rw [expandPath_lt_iff_strftime hbs hroom h h', ← blocks_text hbs, ← blocks_text hbs]
  exact text_lt_iff (fun b hb => (ofClock_blocks hbs b hb).shows) hreach h h'

/-- **When paths sort as times do.**  Of a pattern whose conversions all have a
fixed width the expansion never goes back while the clock does not, if and only
if each field of the clock is shown behind those that are more significant. -/
theorem expandPath_collates_iff (hfixed : (blocks P).isSome) (hroom : Roomy P) :
    Collates Tm.Dated Tm.clock (fun tm => expandPath tm P) ↔ (resolution P).isSome := by
  obtain ⟨bs, hbs⟩ := Option.isSome_iff_exists.mp hfixed
  have hof := ofClock_blocks hbs
  have htext : Collates Tm.Dated Tm.clock (fun tm => expandPath tm P) ↔
      Collates Tm.Dated Tm.clock (text bs) := by
    unfold Collates
    refine forall₂_congr fun t t' => forall₃_congr fun ht ht' _ => ?_
    rw [← not_lt, ← not_lt, expandPath_lt_iff_strftime hbs hroom ht' ht, blocks_text hbs,
      blocks_text hbs]
  have hres : resolution P = reach 0 bs := by rw [resolution, hbs]; rfl
  rw [htext, hres]
  exact collates_iff_reach (fun b hb => (hof b hb).shows) varied_clock fun b hb => (hof b hb).place

/-- "/log.%Y%m%d%H" follows the clock, and "/log.%m%Y" does not. -/
theorem expandPath_collates_iff_month :
    Collates Tm.Dated Tm.clock (fun tm => expandPath tm (ascii "/log.%Y%m%d%H")) ∧
      ¬ Collates Tm.Dated Tm.clock (fun tm => expandPath tm (ascii "/log.%m%Y")) := by
  constructor
  · refine (expandPath_collates_iff ?_ (roomy_of_one ?_ (dated_oneOn 6) ?_)).mpr ?_ <;>
      decide +kernel
  · refine mt (expandPath_collates_iff ?_ (roomy_of_one ?_ (dated_oneOn 6) ?_)).mp ?_ <;>
      decide +kernel

end Strftime

open Strftime Manager PositionFile

namespace PathQueue

variable {cfg : Config} {P : Str} {conf : TaskConf} {k : ℕ} {q q' : PathQueue} {c : PathsCall}
  {cs : List (PathsCall × Tm)}

/-! ## The queue of a task

The queue is in the order of the paths (`queued_in_order`), and the paths are in
the order of the times.
-/

/-- Of two files of the pattern the first one is that of the earlier time. -/
def Earlier (P : Str) (k : ℕ) (path path' : Str) : Prop :=
  ∀ tm tm' : Tm, tm.Dated → tm'.Dated → path = expandPath tm P → path' = expandPath tm' P →
    tm.clock.take k < tm'.clock.take k

/-- A call of `updateTaskPaths` at the time, with some files in the directory.
What the position file has for the pattern is the path of a time that is over. -/
structure CallAt (P : Str) (c : PathsCall) (tm : Tm) : Prop where
  dated : tm.Dated
  expandPath : c.env.expandPath P = Logkafka.expandPath tm P
  globed : ∃ turns files, c.env.globed P = getPathPatternGlobed turns files P
  expands : c.env.expandPath P ≠ P
  saved : ∀ last, getPath c.manager.peMap P = some last →
    ∃ tm' : Tm, tm'.Dated ∧ tm'.clock ≤ tm.clock ∧ last = Logkafka.expandPath tm' P

theorem expandPath_le (hroom : Roomy P) (hk : resolution P = some k) {tm tm' : Tm} (h : tm.Dated)
    (h' : tm'.Dated) (hle : tm.clock ≤ tm'.clock) : expandPath tm P ≤ expandPath tm' P := by
  refine not_lt.mp fun hlt => absurd hle (not_le.mpr ?_)
  exact lt_of_take_lt ((expandPath_lt_iff hroom hk h' h).mp hlt)

theorem addPath_firstUpdatePaths (task : Task) (path : Str) :
    (task.addPath path).stat.firstUpdatePaths = task.stat.firstUpdatePaths := by
  unfold Task.addPath
  split
  · rfl
  · split <;> rfl

/-- A call that follows the last path is the first update. -/
theorem firstUpdatePaths_step (hfollow : c.conf.logConf.followLast = true)
    (hexpands : c.env.expandPath P ≠ P) (h : step cfg P c q = some q') :
    q'.task.stat.firstUpdatePaths = false := by
  obtain ⟨rest, -, rfl⟩ := step_spec h
  show (updatedTask _ _ _ _ _).stat.firstUpdatePaths = false
  rw [updatedTask, addPath_firstUpdatePaths]
  show (firstUpdate _ _ _ _).stat.firstUpdatePaths = false
  unfold firstUpdate
  split
  · rfl
  · next hnot => exact eq_false_of_ne_true fun hfirst => hnot ⟨hfirst, hexpands, hfollow⟩

/-- Where the settings stay, only the first call catches up, and it finds the
queue empty. -/
theorem along_catchesUp (followLast : Bool) (hroom : Roomy P) (hk : resolution P = some k)
    (hcalls : ∀ a ∈ cs, CallAt P a.1 a.2)
    (hconf : ∀ a ∈ cs, a.1.conf.logConf.followLast = followLast)
    (hq : q.paths = [] ∨ q.task.stat.firstUpdatePaths = false ∨ followLast = false) :
    Along (step cfg P) (CatchesUp P) (cs.map Prod.fst) q := by
  induction cs generalizing q with
  | nil => trivial
  | cons a cs ih =>
      obtain ⟨hcall, hcalls⟩ := List.forall_mem_cons.mp hcalls
      obtain ⟨hfollows, hconf⟩ := List.forall_mem_cons.mp hconf
      refine ⟨fun hfirst _ hfollow last hlast => Or.inr ?_, fun q' h => ?_⟩
      · have hnil : q.paths = [] := by
          rcases hq with hq | hq | hq
          · exact hq
          · exact absurd (hfirst.symm.trans hq) (by decide)
          · exact absurd (hfollow.symm.trans (hfollows.trans hq)) (by decide)
        obtain ⟨tm, hdated, hclock, rfl⟩ := hcall.saved last hlast
        refine ⟨by simp [hnil], ?_⟩
        rw [hcall.expandPath]
        exact expandPath_le hroom hk hdated hcall.dated hclock
      · refine ih hcalls hconf (Or.inr ?_)
        cases followLast with
        | false => exact Or.inr rfl
        | true => exact Or.inl (firstUpdatePaths_step hfollows hcall.expands h)

/-- The expansions do not go back where the clock does not. -/
theorem nonDecreasing_of_clock (hroom : Roomy P) (hk : resolution P = some k)
    (hcalls : ∀ a ∈ cs, CallAt P a.1 a.2)
    (hclock : (cs.map fun a => a.2.clock).Pairwise (· ≤ ·)) :
    NonDecreasing P (cs.map Prod.fst) := by
  unfold NonDecreasing
  rw [List.pairwise_map, List.pairwise_map]
  refine (List.pairwise_map.mp hclock).imp_of_mem fun {a b} ha hb hle => ?_
  rw [(hcalls a ha).expandPath, (hcalls b hb).expandPath]
  exact expandPath_le hroom hk (hcalls a ha).dated (hcalls b hb).dated hle

/-- `glob(3)` gives the files in their order. -/
theorem globSorted (hcalls : ∀ a ∈ cs, CallAt P a.1 a.2) : GlobSorted P (cs.map Prod.fst) := by
  intro c hc ps hps
  obtain ⟨a, ha, rfl⟩ := List.mem_map.mp hc
  obtain ⟨turns, files, hglobed⟩ := (hcalls a ha).globed
  obtain ⟨expr, -, hglob⟩ := Option.bind_eq_some_iff.mp (hglobed.symm.trans hps)
  rw [globPath_eq_some hglob]
  exact files.sorted.filter _

/-- **The files of a pattern are collected in the order of time**, each at most
once, if the conversions of the pattern have a fixed width and stand in order,
the clock does not go back, and the settings do not switch `follow_last`. -/
theorem handed_in_time (followLast : Bool) (cs : List (PathsCall × Tm)) (hroom : Roomy P)
    (hk : resolution P = some k) (hcalls : ∀ a ∈ cs, CallAt P a.1 a.2)
    (hclock : (cs.map fun a => a.2.clock).Pairwise (· ≤ ·))
    (hconf : ∀ a ∈ cs, a.1.conf.logConf.followLast = followLast)
    (hr : run (step cfg P) (cs.map Prod.fst) (new cfg conf) = some q) :
    q.paths.Pairwise (Earlier P k) ∧ q.handed.Pairwise (Earlier P k) := by
  have hinv : q.Inv :=
    Inv.new.run (fun e he => by cases he) (nonDecreasing_of_clock hroom hk hcalls hclock)
      (globSorted hcalls) (along_catchesUp followLast hroom hk hcalls hconf (Or.inl rfl)) hr
  have hearlier {p p' : Str} (hlt : p < p') : Earlier P k p p' := by
    rintro tm tm' h h' rfl rfl
    exact (expandPath_lt_iff hroom hk h h').mp hlt
  exact ⟨hinv.paths.imp hearlier, hinv.handed.imp hearlier⟩

theorem friday_lt : 5 < 7 := by decide

theorem sunday_lt : 0 < 7 := by decide

/-- A year later. -/
def nextYearCall : PathsCall :=
  { yearlyCall with
    env := { yearlyCall.env with
      expandPath := expandPath (newYear 2017 ⟨0, sunday_lt⟩ 1483228800) } }

def twoYears : List (PathsCall × Tm) :=
  [(yearlyCall, newYear 2016 ⟨5, friday_lt⟩ 1451606400),
    (nextYearCall, newYear 2017 ⟨0, sunday_lt⟩ 1483228800)]

theorem dated_newYear {year epoch : ℤ} {wday : Fin 7} (h : 1000 ≤ year ∧ year < 10000) :
    (newYear year wday epoch).Dated :=
  ⟨h, ⟨le_refl 1, show 1 ≤ 31 by decide⟩, show 0 < 24 by decide, show 0 < 60 by decide,
    show 0 ≤ 60 by decide⟩

/-- The call finds the path of 2015. -/
theorem callAt_yearly {c : PathsCall} {tm : Tm} (hdated : tm.Dated)
    (henv : c.env.expandPath = expandPath tm) (hglobed : c.env.globed = yearlyCall.env.globed)
    (hmanager : c.manager = yearlyCall.manager) (hexpands : expandPath tm yearly ≠ yearly)
    (hclock : (newYear 2015 4 1420070400).clock ≤ tm.clock) : CallAt yearly c tm where
  dated := hdated
  expandPath := by rw [henv]
  globed := ⟨5, yearFiles, congrFun hglobed yearly⟩
  expands := by rwa [henv]
  saved last hlast := by
    rw [hmanager] at hlast
    have hsaved : getPath yearlyCall.manager.peMap yearly =
        some (Logkafka.expandPath (newYear 2015 4 1420070400) yearly) := by decide +kernel
    obtain rfl := Option.some.inj (hsaved.symm.trans hlast)
    exact ⟨_, dated_newYear (by decide), hclock, rfl⟩

theorem handed_in_time_years : ∃ q,
    run (step sizes yearly) (twoYears.map Prod.fst) (new sizes yearlyCall.conf) = some q ∧
      q.paths.Pairwise (Earlier yearly 1) ∧ q.handed.Pairwise (Earlier yearly 1) := by
  have hr : run (step sizes yearly) (twoYears.map Prod.fst) (new sizes yearlyCall.conf)
      = some _ := rfl
  refine ⟨_, hr, handed_in_time true twoYears
    (roomy_of_one (by decide +kernel) (dated_oneOn 6) (by decide +kernel)) (by decide +kernel)
    (fun a ha => ?_) (by decide) (fun a ha => ?_) hr⟩
  · rcases List.mem_pair.mp ha with rfl | rfl
    · exact callAt_yearly (dated_newYear (by decide)) rfl rfl rfl (by decide +kernel) (by decide)
    · exact callAt_yearly (dated_newYear (by decide)) rfl rfl rfl (by decide +kernel) (by decide)
  · rcases List.mem_pair.mp ha with rfl | rfl <;> rfl

end PathQueue

end Logkafka
