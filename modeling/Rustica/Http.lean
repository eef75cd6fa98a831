/-
  Requests over HTTP: what the guest is told of the bytes that it receives.

  The guest receives into a bytea and hands the same bytes to llhttp, which calls back with the parts
  of the request that are in them; each is told to the guest as a view of the bytea.  A part that is
  cut by the end of the bytes goes on with the next ones.  So it does not matter how the connection
  cuts the request: the views are together what llhttp has to tell of the whole (`http_stream`).

  All views have the type of the first parameter of the handler that was called first.  They have the
  types of their handlers exactly when these agree (`views_typed_iff`).

  llhttp is a lexer (`Rustica.Lib.Spans`), which is a parameter; a pause is not resumed here.  Handlers
  do not call the natives for HTTP themselves.
-/
import Rustica.Lib.Spans
import Rustica.Native

namespace Rustica.Http

open Spans

/-! ## Handlers -/

/-- The callbacks with data. -/
inductive DataCallback where
  | onMethod | onUrl | onVersion | onHeaderField | onHeaderValue | onBody
  deriving DecidableEq

inductive Callback where
  | onMessageBegin | onMethodComplete | onUrlComplete | onVersionComplete | onHeaderFieldComplete
  | onHeaderValueComplete | onHeadersComplete | onMessageComplete
  deriving DecidableEq

def DataCallback.name : DataCallback → String
  | .onMethod => "on_method"
  | .onUrl => "on_url"
  | .onVersion => "on_version"
  | .onHeaderField => "on_header_field"
  | .onHeaderValue => "on_header_value"
  | .onBody => "on_body"

def Callback.name : Callback → String
  | .onMessageBegin => "on_message_begin"
  | .onMethodComplete => "on_method_complete"
  | .onUrlComplete => "on_url_complete"
  | .onVersionComplete => "on_version_complete"
  | .onHeaderFieldComplete => "on_header_field_complete"
  | .onHeaderValueComplete => "on_header_value_complete"
  | .onHeadersComplete => "on_headers_complete"
  | .onMessageComplete => "on_message_complete"

/-- A function of the guest; the heap type is that of its first parameter. -/
structure Func where
  paramHeapType : BitVec 32

/-- The functions in the context, and the callbacks in `http_settings`: both are set for a function
    that the module exports. -/
structure Handlers where
  data : DataCallback → Option Func
  plain : Callback → Option Func
  onError : Option Func

/-- `init_llhttp`; `lookup` is `wasm_runtime_lookup_function`. -/
def initLlhttp (lookup : String → Option Func) : Handlers :=
  ⟨fun c => lookup c.name, fun c => lookup c.name, lookup "on_error"⟩

/-- A struct with the bytea, and the range. -/
structure View where
  heapType : BitVec 32
  buf : Option ℕ
  start : ℤ
  len : ℤ
  deriving DecidableEq

inductive GuestCall where
  | data (c : DataCallback) (view : View)
  | plain (c : Callback)
  | error (reason : List UInt8)

/-! ## Calls -/

/-- The end of `llhttp_execute`: `HPE_OK`, `HPE_PAUSED` or an error. -/
inductive Errno where
  | ok | paused | error
  deriving DecidableEq

/-- What a handler answers, and no answer if it traps. -/
def callbackResult : Option Int32 → Errno
  | some v => if v = 0 then .ok else if v = 1 then .error else if v = 2 then .paused else .error
  | none => .error

/-- llhttp goes on from a state, or has been stopped. -/
inductive Parser (σ : Type) where
  | running (s : σ)
  | stopped (rv : Errno)

/-- The part of the context that changes. -/
structure Context (σ : Type) where
  parser : Parser σ
  /-- none is -1 -/
  bytesView : Option (BitVec 32)
  currentBuf : Option ℕ

/-- A context that `init_llhttp` has set up. -/
def Context.init {σ : Type} (s : σ) : Context σ := ⟨.running s, none, none⟩

variable {σ : Type} (l : Lexer σ DataCallback Callback) (h : Handlers)
  (answer : List GuestCall → GuestCall → Option Int32) (reason : List UInt8)

/-- `llhttp_data_cb_impl` up to the call: the view, with the place in the bytea where the span of the
    input starts. -/
def llhttpDataCbImpl (ctx : Context σ) (c : DataCallback) (func : Func) (place length : ℤ) :
    GuestCall × Context σ :=
  let heapType := ctx.bytesView.getD func.paramHeapType
  (.data c ⟨heapType, ctx.currentBuf, asInt32 place, asInt32 length⟩,
    { ctx with bytesView := some heapType })

/-- A callback that is set. -/
def callback (ctx : Context σ) (start : ℤ) :
    Item DataCallback Callback → Option GuestCall × Context σ
  | .span c place len => match h.data c with
    | some func =>
      let r := llhttpDataCbImpl ctx c func (start + place) len
      (some r.1, r.2)
    | none => (none, ctx)
  | .event c => ((h.plain c).map fun _ => .plain c, ctx)

/-- The callbacks of some items, up to the one that does not answer 0. -/
def callbacks (start : ℤ) : List GuestCall → Context σ → List (Item DataCallback Callback) →
    List GuestCall × Context σ × Errno
  | _, ctx, [] => ([], ctx, .ok)
  | before, ctx, item :: items =>
    match callback h ctx start item with
    | (none, ctx) => callbacks start before ctx items
    | (some call, ctx) => match callbackResult (answer before call) with
      | .ok =>
        let rest := callbacks start (before ++ [call]) ctx items
        (call :: rest.1, rest.2)
      | rv => ([call], ctx, rv)

/-- `maybe_call_on_error`. -/
def maybeCallOnError (rv : Errno) : List GuestCall :=
  match rv, h.onError with
  | .error, some _ => [.error reason]
  | _, _ => []

/-- `llhttp_execute`. -/
def llhttpExecute (ctx : Context σ) (start : ℤ) (before : List GuestCall) (input : List UInt8) :
    List GuestCall × Context σ × Errno :=
  match ctx.parser with
  | .stopped rv => ([], ctx, rv)
  | .running s =>
    let r := callbacks h answer start before ctx (l.items s input).1
    match r.2.2, (l.items s input).2 with
    | .ok, some s => (r.1, { r.2.1 with parser := .running s }, .ok)
    | .ok, none => (r.1, { r.2.1 with parser := .stopped .error }, .error)
    | rv, _ => (r.1, { r.2.1 with parser := .stopped rv }, rv)

/-- `env_llhttp_execute`, of a bytea with these bytes: the calls, and the context after them. -/
def envLlhttpExecute (ctx : Context σ) (before : List GuestCall) (buf : ℕ) (bytes : List UInt8)
    (start len : Int32) : Native (List GuestCall × Context σ × Errno) :=
  if 0 ≤ start.toInt ∧ 0 ≤ len.toInt ∧ start.toInt + len.toInt ≤ bytes.length then
    let input := (bytes.drop start.toInt.toNat).take len.toInt.toNat
    let (calls, ctx, rv) := llhttpExecute l h answer { ctx with currentBuf := some buf } start.toInt
      before input
    .returns (calls ++ maybeCallOnError h reason rv, { ctx with currentBuf := none }, rv)
  else .overruns

/-! ## Sessions -/

/-- The guest receives some bytes into a bytea, at a place, and executes them. -/
structure Round where
  buf : ℕ
  /-- the contents before -/
  old : List UInt8
  start : ℕ
  data : List UInt8
  fits : start + data.length ≤ old.length
  small : old.length < 2 ^ 31

/-- The contents of the bytea. -/
def Round.bytes (r : Round) : List UInt8 :=
  r.old.take r.start ++ r.data ++ r.old.drop (r.start + r.data.length)

/-- The calls of the guest, each with the round that it is from. -/
def session : Context σ → List GuestCall → List Round → List (Round × GuestCall)
  | _, _, [] => []
  | ctx, before, r :: rs =>
    match envLlhttpExecute l h answer reason ctx before r.buf r.bytes (Int32.ofNat r.start)
      (Int32.ofNat r.data.length) with
    | .returns (calls, ctx, _) =>
      calls.map (fun call => (r, call)) ++ session ctx (before ++ calls) rs
    | _ => []

/-- The bytes of a view, and the callback without data. -/
def observed : Round × GuestCall → List (Content DataCallback Callback)
  | (r, .data c view) =>
    ((r.bytes.drop view.start.toNat).take view.len.toNat).map fun b => .inl (c, b)
  | (_, .plain c) => [.inr c]
  | (_, .error _) => []

/-- The guest has a handler for it. -/
def Handled : Content DataCallback Callback → Bool
  | .inl (c, _) => (h.data c).isSome
  | .inr c => (h.plain c).isSome

/-- A view is of the bytea of the round, within it, and has the type of the handler's parameter. -/
def ViewOf : Round × GuestCall → Prop
  | (r, .data c view) => view.buf = some r.buf ∧ 0 ≤ view.start ∧ 0 ≤ view.len ∧
      view.start + view.len ≤ r.bytes.length ∧ ∃ f, h.data c = some f ∧ view.heapType = f.paramHeapType
  | _ => True

variable {l h answer reason} {ctx ctx' : Context σ} {before calls : List GuestCall} {r : Round}
  {items : List (Item DataCallback Callback)} {rv : Errno}

theorem Round.length_bytes (r : Round) : r.bytes.length = r.old.length := by
  have := r.fits
  simp only [bytes, List.length_append, List.length_take, List.length_drop]
  omega

/-- The bytes that have been received are there. -/
theorem Round.drop_bytes (r : Round) {k n : ℕ} (h : k + n ≤ r.data.length) :
    (r.bytes.drop (r.start + k)).take n = (r.data.drop k).take n := by
  have hfits := r.fits
  have htake : (r.old.take r.start).length = r.start := by
    rw [List.length_take]
    omega
  rw [bytes, List.append_assoc, List.drop_append, htake, List.drop_of_length_le (by omega),
    List.nil_append, Nat.add_sub_cancel_left, List.drop_append_of_le_length (by omega),
    List.take_append_of_le_length (by rw [List.length_drop]; omega)]

theorem Round.input (r : Round) : (r.bytes.drop r.start).take r.data.length = r.data := by
  have h := r.drop_bytes (k := 0) (n := r.data.length) (by omega)
  rw [Nat.add_zero] at h
  rw [h, List.drop_zero, List.take_length]

/-- All handlers with data have parameters of the type. -/
def Handlers.Agree (h : Handlers) (t : BitVec 32) : Prop :=
  ∀ c f, h.data c = some f → f.paramHeapType = t

/-- All data handlers that were called had this type. -/
def Context.Views (ctx : Context σ) (t : BitVec 32) : Prop := ∀ t' ∈ ctx.bytesView, t' = t

/-- A place in the bytea is an `int32_t`. -/
theorem Round.place (r : Round) {n : ℕ} (h : n ≤ r.bytes.length) : asInt32 (n : ℤ) = n := by
  rw [r.length_bytes] at h
  have := r.small
  exact asInt32_of_range (by omega) (by omega)

/-- A span, told to a handler. -/
theorem callback_span {t : BitVec 32} {c : DataCallback} {f : Func} {place len : ℕ}
    (hagree : h.Agree t) (hctx : ctx.Views t) (hbuf : ctx.currentBuf = some r.buf)
    (hf : h.data c = some f) (hwithin : place + len ≤ r.data.length) :
    ∃ view, callback h ctx r.start (.span c place len) =
        (some (.data c view), { ctx with bytesView := some t }) ∧
      ViewOf h (r, .data c view) ∧
      observed (r, .data c view) = (Item.span c place len).content r.data := by
  have hlen := r.length_bytes
  have hfits := r.fits
  have ht : ctx.bytesView.getD f.paramHeapType = t := by
    cases hv : ctx.bytesView with
    | none => exact hagree c f hf
    | some t' => exact hctx t' hv
  refine ⟨⟨t, ctx.currentBuf, (r.start + place : ℕ), len⟩, ?_, ?_, ?_⟩
  · have hstart : asInt32 ((r.start : ℤ) + place) = (r.start + place : ℕ) := by
      rw [← Nat.cast_add]
      exact r.place (by omega)
    rw [callback, hf]
    dsimp only [llhttpDataCbImpl]
    rw [ht, hstart, r.place (by omega)]
  · refine ⟨hbuf, Int.natCast_nonneg _, Int.natCast_nonneg _, ?_, f, hf, (hagree c f hf).symm⟩
    dsimp only
    omega
  · rw [observed, Int.toNat_natCast, Int.toNat_natCast, r.drop_bytes hwithin, Item.content]

theorem filter_span {c : DataCallback} {piece : List UInt8} {place len : ℕ} :
    ((Item.span c place len).content piece).filter (Handled h) =
      if (h.data c).isSome then (Item.span c place len).content piece else [] := by
  rw [Item.content]
  split_ifs with hc
  · refine List.filter_eq_self.2 fun x hx => ?_
    obtain ⟨b, -, rfl⟩ := List.mem_map.1 hx
    exact hc
  · refine List.filter_eq_nil_iff.2 fun x hx => ?_
    obtain ⟨b, -, rfl⟩ := List.mem_map.1 hx
    exact hc

/-- **The callbacks of a round**, when all handlers answer 0: what they observe, and their views. -/
theorem callbacks_ok {t : BitVec 32} (before : List GuestCall) (hagree : h.Agree t)
    (hanswer : ∀ before call, answer before call = some 0) (hctx : ctx.Views t)
    (hbuf : ctx.currentBuf = some r.buf) (hitems : ∀ x ∈ items, x.Within r.data) :
    ∃ calls ctx', callbacks h answer r.start before ctx items = (calls, ctx', .ok) ∧
      ctx'.Views t ∧
      (calls.flatMap fun call => observed (r, call)) =
        (items.flatMap (Item.content r.data)).filter (Handled h) ∧
      ∀ call ∈ calls, ViewOf h (r, call) := by
  induction items generalizing before ctx with
  | nil => exact ⟨[], ctx, rfl, hctx, rfl, fun call hcall => absurd hcall List.not_mem_nil⟩
  | cons item items ih =>
    obtain ⟨hitem, hrest⟩ := List.forall_mem_cons.1 hitems
    have hok : ∀ call, callbackResult (answer before call) = .ok := by
      intro call
      rw [hanswer]
      rfl
    rw [List.flatMap_cons, List.filter_append]
    cases item with
    | span c place len =>
      rw [filter_span]
      cases hf : h.data c with
      | none =>
        rw [callbacks, callback, hf]
        exact ih before hctx hbuf hrest
      | some f =>
        obtain ⟨view, hcall, hview, hobs⟩ := callback_span hagree hctx hbuf hf hitem
        have hviews : ({ ctx with bytesView := some t } : Context σ).Views t := by
          rintro t' ⟨⟩
          rfl
        obtain ⟨calls, ctx', hcalls, hctx', hobs', hviews'⟩ :=
          ih (before ++ [.data c view]) hviews hbuf hrest
        refine ⟨.data c view :: calls, ctx', ?_, hctx', ?_, ?_⟩
        · rw [callbacks, hcall]
          dsimp only
          rw [hok, hcalls]
        · rw [List.flatMap_cons, hobs', hobs]
          rfl
        · exact List.forall_mem_cons.2 ⟨hview, hviews'⟩
    | event c =>
      rw [callbacks, callback]
      cases hf : h.plain c with
      | none =>
        have hfilter : ((Item.event c).content r.data).filter (Handled h) = [] := by
          rw [Item.content, List.filter_singleton, Handled, hf]
          rfl
        rw [hfilter]
        exact ih before hctx hbuf hrest
      | some f =>
        have hfilter : ((Item.event c).content r.data).filter (Handled h) = [.inr c] := by
          rw [Item.content, List.filter_singleton, Handled, hf]
          rfl
        obtain ⟨calls, ctx', hcalls, hctx', hobs', hviews'⟩ :=
          ih (before ++ [.plain c]) hctx hbuf hrest
        refine ⟨.plain c :: calls, ctx', ?_, hctx', ?_, ?_⟩
        · dsimp only [Option.map_some]
          rw [hok, hcalls]
        · rw [hfilter, List.flatMap_cons, hobs']
          rfl
        · exact List.forall_mem_cons.2 ⟨trivial, hviews'⟩

theorem int32_of_le {n m : ℕ} (h : n ≤ m) (hm : m < 2 ^ 31) : (Int32.ofNat n).toInt = n :=
  Int32.toInt_ofNat_of_lt (by omega)

/-- A round is executed on the bytes received. -/
theorem envLlhttpExecute_round (ctx : Context σ) (before : List GuestCall) (r : Round) :
    envLlhttpExecute l h answer reason ctx before r.buf r.bytes (Int32.ofNat r.start)
        (Int32.ofNat r.data.length) =
      let e := llhttpExecute l h answer { ctx with currentBuf := some r.buf } r.start before r.data
      .returns (e.1 ++ maybeCallOnError h reason e.2.2, { e.2.1 with currentBuf := none }, e.2.2) := by
  have hfits := r.fits
  have hsmall := r.small
  rw [envLlhttpExecute, int32_of_le (show r.start ≤ r.old.length by omega) hsmall,
    int32_of_le (show r.data.length ≤ r.old.length by omega) hsmall,
    if_pos (by rw [r.length_bytes]; omega), Int.toNat_natCast, Int.toNat_natCast, r.input]

/-- Bytes without an error, of which no callback stops llhttp. -/
theorem llhttpExecute_ok {s s' : σ} {start : ℤ} {input : List UInt8} (hs : ctx.parser = .running s)
    (hcalls : callbacks h answer start before ctx (l.items s input).1 = (calls, ctx', .ok))
    (hnext : (l.items s input).2 = some s') :
    llhttpExecute l h answer ctx start before input =
      (calls, { ctx' with parser := .running s' }, .ok) := by
  rw [llhttpExecute]
  split
  · rename_i hstopped
    cases hs.symm.trans hstopped
  · rename_i s₁ hrunning
    obtain rfl := Parser.running.inj (hs.symm.trans hrunning)
    simp only [hcalls, hnext]

variable (reason) in
/-- **A round** without an error, when all handlers answer 0. -/
theorem round_ok {t : BitVec 32} {s s' : σ} (before : List GuestCall) (hagree : h.Agree t)
    (hanswer : ∀ before call, answer before call = some 0) (hctx : ctx.Views t)
    (hs : ctx.parser = .running s) (hs' : (l.told s r.data).2 = some s') :
    ∃ calls ctx', envLlhttpExecute l h answer reason ctx before r.buf r.bytes (Int32.ofNat r.start)
        (Int32.ofNat r.data.length) = .returns (calls, ctx', .ok) ∧
      ctx'.parser = .running s' ∧ ctx'.Views t ∧
      (calls.flatMap fun call => observed (r, call)) = (l.told s r.data).1.filter (Handled h) ∧
      ∀ call ∈ calls, ViewOf h (r, call) := by
  obtain ⟨hstate, -, heq⟩ := content_items l s r.data
  obtain ⟨ctx₁, hctx₁⟩ : ∃ ctx₁ : Context σ, ctx₁ = { ctx with currentBuf := some r.buf } := ⟨_, rfl⟩
  obtain ⟨calls, ctx', hcalls, hctx', hobs, hviews⟩ :=
    callbacks_ok before hagree hanswer (show ctx₁.Views t by rw [hctx₁]; exact hctx)
      (show ctx₁.currentBuf = some r.buf by rw [hctx₁]) (items_within (l := l) (s := s))
  rw [heq (by rw [hs']; rfl)] at hobs
  have hexec := llhttpExecute_ok (show ctx₁.parser = .running s by rw [hctx₁]; exact hs) hcalls
    (hstate.trans hs')
  refine ⟨calls, { ctx' with parser := .running s', currentBuf := none }, ?_, rfl, hctx', hobs, hviews⟩
  rw [envLlhttpExecute_round, ← hctx₁, hexec]
  simp only [maybeCallOnError, List.append_nil]

/-- **A request does not depend on how it is cut**: when the guest executes all that it receives, its
    handlers answer 0 and agree on the type of views, and the bytes are no error, the handlers observe
    what is to be told of all bytes together, as far as there are handlers for it, and each view is
    one of the bytea that was received into. -/
theorem http_stream {t : BitVec 32} {s : σ} {rounds : List Round} (hagree : h.Agree t)
    (hanswer : ∀ before call, answer before call = some 0)
    (hok : (l.told s (rounds.flatMap Round.data)).2.isSome) :
    (session l h answer reason (.init s) [] rounds).flatMap observed =
        (l.told s (rounds.flatMap Round.data)).1.filter (Handled h) ∧
      ∀ x ∈ session l h answer reason (.init s) [] rounds, ViewOf h x := by
  suffices hsuff : ∀ (ctx : Context σ) before s, ctx.parser = .running s → ctx.Views t →
      (l.told s (rounds.flatMap Round.data)).2.isSome →
      (session l h answer reason ctx before rounds).flatMap observed =
          (l.told s (rounds.flatMap Round.data)).1.filter (Handled h) ∧
        ∀ x ∈ session l h answer reason ctx before rounds, ViewOf h x from
    hsuff (.init s) [] s rfl (fun t' ht' => by cases ht') hok
  clear hok s
  induction rounds with
  | nil => exact fun ctx before s _ _ _ => ⟨rfl, fun x hx => absurd hx List.not_mem_nil⟩
  | cons r rounds ih =>
    intro ctx before s hs hctx hok
    rw [List.flatMap_cons] at hok ⊢
    obtain ⟨s', hs'⟩ := told_isSome hok
    obtain ⟨htold, hstate⟩ := told_append (rounds.flatMap Round.data) hs'
    rw [hstate] at hok
    obtain ⟨calls, ctx', hexec, hparser, hctx', hobs, hviews⟩ :=
      round_ok reason before hagree hanswer hctx hs hs'
    obtain ⟨hrest, hviews'⟩ := ih ctx' (before ++ calls) s' hparser hctx' hok
    rw [session, hexec]
    refine ⟨?_, ?_⟩
    · rw [List.flatMap_append, hrest, htold, List.filter_append, ← hobs, List.flatMap_map]
    · refine List.forall_mem_append.2 ⟨fun x hx => ?_, hviews'⟩
      obtain ⟨call, hcall, rfl⟩ := List.mem_map.1 hx
      exact hviews call hcall

/-- A lexer of one URL, which a blank ends. -/
def urlLexer : Lexer Unit DataCallback Callback where
  step _ b := if b = 32 then some ⟨[.onUrlComplete], none, [], ()⟩ else some ⟨[], some .onUrl, [], ()⟩

/-- A guest with all handlers. -/
def allHandlers : Handlers := ⟨fun _ => some ⟨7⟩, fun _ => some ⟨7⟩, some ⟨7⟩⟩

/-- The URL `ab`, cut in two. -/
theorem url_cut : (session urlLexer allHandlers (fun _ _ => some 0) [] (.init ())  []
      [⟨0, [0, 0], 1, [97], by decide, by decide⟩, ⟨0, [0, 97], 0, [98, 32], by decide, by decide⟩]
      ).flatMap observed = [.inl (.onUrl, 97), .inl (.onUrl, 98), .inr .onUrlComplete] :=
  (http_stream (t := 7) (by rintro c f ⟨⟩; rfl) (fun _ _ => rfl) rfl).1

/-! ## The type of views -/

/-- Some calls, and `bytes_view` before and after them: it stays once it is set, all views have it,
    and it is set for the handler of one of the calls. -/
structure Kept (h : Handlers) (v : Option (BitVec 32)) (calls : List GuestCall)
    (v' : Option (BitVec 32)) : Prop where
  called : ∀ c view, .data c view ∈ calls → (h.data c).isSome ∧ v' = some view.heapType
  stays : ∀ t, v = some t → v' = some t
  first : ∀ t, v' = some t → v = some t ∨
    ∃ c view f, .data c view ∈ calls ∧ h.data c = some f ∧ f.paramHeapType = t

variable {v v₁ v' : Option (BitVec 32)} {calls' : List GuestCall}

theorem Kept.append (h1 : Kept h v calls v₁) (h2 : Kept h v₁ calls' v') :
    Kept h v (calls ++ calls') v' := by
  refine ⟨fun c view hmem => ?_, fun t ht => h2.stays t (h1.stays t ht), fun t ht => ?_⟩
  · rcases List.mem_append.1 hmem with hmem | hmem
    · obtain ⟨hc, hv⟩ := h1.called c view hmem
      exact ⟨hc, h2.stays _ hv⟩
    · exact h2.called c view hmem
  · rcases h2.first t ht with ht | ⟨c, view, f, hmem, hf, ht⟩
    · rcases h1.first t ht with ht | ⟨c, view, f, hmem, hf, ht⟩
      · exact .inl ht
      · exact .inr ⟨c, view, f, List.mem_append_left _ hmem, hf, ht⟩
    · exact .inr ⟨c, view, f, List.mem_append_right _ hmem, hf, ht⟩

/-- No call with data. -/
theorem Kept.refl (hno : ∀ c view, GuestCall.data c view ∉ calls) : Kept h v calls v :=
  ⟨fun c view hmem => absurd hmem (hno c view), fun _ => id, fun _ => .inl⟩

/-- One callback. -/
theorem kept_callback (ctx : Context σ) (start : ℤ) (item : Item DataCallback Callback) :
    Kept h ctx.bytesView (callback h ctx start item).1.toList (callback h ctx start item).2.bytesView := by
  cases item with
  | span c place len =>
    rw [callback]
    cases hf : h.data c with
    | none => exact .refl fun c view hmem => absurd hmem List.not_mem_nil
    | some f =>
      refine ⟨fun c' view hmem => ?_, fun t ht => ?_, fun t ht => ?_⟩
      · obtain ⟨⟩ := List.mem_singleton.1 hmem
        exact ⟨by rw [hf]; rfl, rfl⟩
      · exact congrArg some (by rw [ht]; rfl)
      · cases hv : ctx.bytesView with
        | some t' =>
          have ht' : some t' = some t := by
            simpa only [llhttpDataCbImpl, hv, Option.getD_some] using ht
          exact .inl ht'
        | none =>
          have ht' : some f.paramHeapType = some t := by
            simpa only [llhttpDataCbImpl, hv, Option.getD_none] using ht
          exact .inr ⟨c, _, f, List.mem_singleton_self _, hf, Option.some.inj ht'⟩
  | event c =>
    refine .refl fun c' view hmem => ?_
    rw [callback, Option.mem_toList, Option.map_eq_some_iff] at hmem
    obtain ⟨f, -, hf⟩ := hmem
    cases hf

variable (h answer) in
theorem kept_callbacks (ctx : Context σ) (start : ℤ) (before : List GuestCall)
    (items : List (Item DataCallback Callback)) :
    Kept h ctx.bytesView (callbacks h answer start before ctx items).1
      (callbacks h answer start before ctx items).2.1.bytesView := by
  induction items generalizing before ctx with
  | nil => exact .refl fun c view hmem => absurd hmem List.not_mem_nil
  | cons item items ih =>
    have hone := kept_callback (h := h) ctx start item
    rw [callbacks]
    split
    · rename_i ctx₁ hcall
      rw [hcall] at hone
      exact hone.append (ih ctx₁ before)
    · rename_i call ctx₁ hcall
      rw [hcall] at hone
      split
      · exact hone.append (ih ctx₁ _)
      · exact hone

variable (l h answer) in
theorem kept_llhttpExecute (ctx : Context σ) (start : ℤ) (before : List GuestCall)
    (input : List UInt8) :
    Kept h ctx.bytesView (llhttpExecute l h answer ctx start before input).1
      (llhttpExecute l h answer ctx start before input).2.1.bytesView := by
  rw [llhttpExecute]
  split
  · exact .refl fun c view hmem => absurd hmem List.not_mem_nil
  · rename_i s hs
    have hcalls := kept_callbacks h answer ctx start before (l.items s input).1
    dsimp only
    split <;> exact hcalls

theorem data_notMem_maybeCallOnError (c : DataCallback) (view : View) :
    GuestCall.data c view ∉ maybeCallOnError h reason rv := by
  intro hmem
  unfold maybeCallOnError at hmem
  split at hmem
  · cases List.mem_singleton.1 hmem
  · exact absurd hmem List.not_mem_nil

variable (l h answer reason) in
theorem kept_session (ctx : Context σ) (before : List GuestCall) (rounds : List Round) :
    ∃ v', Kept h ctx.bytesView ((session l h answer reason ctx before rounds).map Prod.snd) v' := by
  induction rounds generalizing ctx before with
  | nil => exact ⟨_, .refl fun c view hmem => absurd hmem List.not_mem_nil⟩
  | cons r rounds ih =>
    have hsnd : (Prod.snd ∘ fun call : GuestCall => (r, call)) = id := rfl
    have hround := kept_llhttpExecute l h answer { ctx with currentBuf := some r.buf } r.start
      before r.data
    rw [session, envLlhttpExecute_round]
    set e := llhttpExecute l h answer { ctx with currentBuf := some r.buf } r.start before r.data
    obtain ⟨v', hrest⟩ := ih { e.2.1 with currentBuf := none }
      (before ++ (e.1 ++ maybeCallOnError h reason e.2.2))
    dsimp only
    rw [List.map_append, List.map_map, hsnd, List.map_id]
    exact ⟨v', .append (.append hround (.refl data_notMem_maybeCallOnError)) hrest⟩

/-- **The type of views**: whatever the guest receives and its handlers answer, the views have the
    types of their handlers' parameters exactly when the parameters of all handlers that are called
    have one type. -/
theorem views_typed_iff {s : σ} {rounds : List Round} :
    (∀ x ∈ session l h answer reason (.init s) [] rounds, ∀ c view, x.2 = .data c view →
        ∃ f, h.data c = some f ∧ view.heapType = f.paramHeapType) ↔
      ∀ x ∈ session l h answer reason (.init s) [] rounds,
        ∀ x' ∈ session l h answer reason (.init s) [] rounds,
          ∀ c view c' view' f f', x.2 = .data c view → x'.2 = .data c' view' →
            h.data c = some f → h.data c' = some f' → f.paramHeapType = f'.paramHeapType := by
  obtain ⟨v', hkept⟩ := kept_session l h answer reason (.init s) [] rounds
  constructor
  · intro htyped x hx x' hx' c view c' view' f f' heq heq' hf hf'
    obtain ⟨f₁, hf₁, ht⟩ := htyped x hx c view heq
    obtain ⟨f₂, hf₂, ht'⟩ := htyped x' hx' c' view' heq'
    obtain rfl := Option.some.inj (hf.symm.trans hf₁)
    obtain rfl := Option.some.inj (hf'.symm.trans hf₂)
    have hv := (hkept.called c view (List.mem_map.2 ⟨x, hx, heq⟩)).2
    have hv' := (hkept.called c' view' (List.mem_map.2 ⟨x', hx', heq'⟩)).2
    exact ht.symm.trans ((Option.some.inj (hv.symm.trans hv')).trans ht')
  · intro hagree x hx c view heq
    obtain ⟨hc, hv⟩ := hkept.called c view (List.mem_map.2 ⟨x, hx, heq⟩)
    obtain ⟨f, hf⟩ := Option.isSome_iff_exists.1 hc
    refine ⟨f, hf, ?_⟩
    rcases hkept.first _ hv with hno | ⟨c', view', f', hmem, hf', ht⟩
    · cases hno
    · obtain ⟨x', hx', heq'⟩ := List.mem_map.1 hmem
      exact ht.symm.trans (hagree x hx x' hx' c view c' view' f f' heq heq' hf hf').symm

end Rustica.Http
