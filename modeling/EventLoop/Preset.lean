/-
  Example programs that show in which order the event loop runs what is waiting.
-/

namespace EventLoop

/-- An example program. -/
structure Preset where
  id : String
  title : String
  description : String
  code : String
  deriving DecidableEq, Repr, Inhabited

namespace Preset

def basicTimeout : Preset where
  id := "basic-timeout"
  title := "Basic setTimeout"
  description := "See how setTimeout moves to Web APIs then task queue"
  code := "console.log('Start');

setTimeout(() => \x7b
  console.log('Timeout callback');
\x7d, 1000);

console.log('End');"

def promiseVsTimeout : Preset where
  id := "promise-vs-timeout"
  title := "Promise vs setTimeout"
  description := "Microtasks run before tasks"
  code := "console.log('Start');

setTimeout(() => \x7b
  console.log('Timeout');
\x7d, 0);

Promise.resolve().then(() => \x7b
  console.log('Promise');
\x7d);

console.log('End');"

def asyncAwait : Preset where
  id := "async-await"
  title := "Async/Await"
  description := "How async/await uses microtasks"
  code := "console.log('Start');

async function fetchData() \x7b
  console.log('Fetching...');
  const data = await Promise.resolve('Data');
  console.log(data);
\x7d

fetchData();

console.log('End');"

def rafDemo : Preset where
  id := "raf-demo"
  title := "requestAnimationFrame"
  description := "rAF runs before paint"
  code := "console.log('Start');

requestAnimationFrame(() => \x7b
  console.log('rAF callback');
\x7d);

setTimeout(() => \x7b
  console.log('Timeout');
\x7d, 0);

console.log('End');"

def microtaskStorm : Preset where
  id := "microtask-storm"
  title := "Microtask Storm"
  description := "Microtasks can block rendering"
  code := "console.log('Start');

Promise.resolve().then(() => \x7b
  console.log('Promise 1');
  Promise.resolve().then(() => \x7b
    console.log('Promise 2');
    Promise.resolve().then(() => \x7b
      console.log('Promise 3');
    \x7d);
  \x7d);
\x7d);

setTimeout(() => \x7b
  console.log('Timeout');
\x7d, 0);

console.log('End');"

def timerOrdering : Preset where
  id := "timer-ordering"
  title := "Timer Ordering"
  description := "Timers should respect their delay, not definition order"
  code := "console.log('Start');

setTimeout(() => console.log('1000ms'), 1000);
setTimeout(() => console.log('500ms'), 500);
setTimeout(() => console.log('10ms'), 10);
setTimeout(() => console.log('0ms'), 0);

console.log('End');"

def closuresAndScope : Preset where
  id := "closures-and-scope"
  title := "Closures & Scope"
  description := "Functions remembering their lexical scope"
  code := "function createCounter(name) \x7b
  let count = 0;
  return function() \x7b
    count = count + 1;
    console.log(name + ': ' + count);
  \x7d;
\x7d

const c1 = createCounter('A');
const c2 = createCounter('B');

c1(); // A: 1
c1(); // A: 2
c2(); // B: 1"

def returnValues : Preset where
  id := "return-values"
  title := "Return Values"
  description := "Functions returning values to callers"
  code := "function add(a, b) \x7b
  return a + b;
\x7d

function square(x) \x7b
  return x * x;
\x7d

const result = square(add(3, 4));
console.log('Result:', result);"

def asyncMixedPriority : Preset where
  id := "async-mixed-priority"
  title := "Mixed Priority (The Exam)"
  description := "Promises, Timeouts, and RAF interaction"
  code := "console.log('1. Script Start');

setTimeout(() => console.log('8. Timeout 0ms'), 0);

requestAnimationFrame(() => console.log('6. RAF'));

Promise.resolve().then(() => \x7b
  console.log('3. Promise 1');
  Promise.resolve().then(() => console.log('4. Promise 2'));
\x7d);

// Nested Logic
setTimeout(() => \x7b
  console.log('9. Timeout 2 (Nested)');
  Promise.resolve().then(() => console.log('10. Microtask in properties'));
\x7d, 0);

console.log('2. Script End');"

def asyncSequential : Preset where
  id := "async-sequential"
  title := "Async/Await Sequential"
  description := "Sequential async operations with await"
  code := "async function fetchData() \x7b
  console.log('Start');

  await Promise.resolve();
  console.log('After first await');

  await Promise.resolve();
  console.log('After second await');

  await Promise.resolve();
  console.log('After third await');

  console.log('Done');
\x7d

fetchData();
console.log('After function call');"

def promiseError : Preset where
  id := "promise-error"
  title := "Promise Error Handling"
  description := "Testing .catch() and .then() skipping"
  code := "console.log('Start');

// 1. Resolve -> .then (Runs)
Promise.resolve()
  .then(() => console.log('1. Success'));

// 2. Reject -> .then (Skip) -> .catch (Runs)
Promise.reject()
  .then(() => console.log('Skipped'))
  .catch(() => console.log('2. Caught Error'));

// 3. Resolve -> .catch (Skip)
Promise.resolve()
  .catch(() => console.log('Skipped Catch'));

console.log('End');"

/-- All example programs. -/
def all : List Preset :=
  [basicTimeout, promiseVsTimeout, asyncAwait, rafDemo, microtaskStorm, timerOrdering,
   closuresAndScope, returnValues, asyncMixedPriority, asyncSequential, promiseError]

/-- The example program with a given name. -/
def find? (id : String) : Option Preset := all.find? (·.id == id)

end Preset

end EventLoop
