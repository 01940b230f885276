/-! The script that a page loads. It replaces parameter tokens in texts and attribute values by
the parameters of the page's address. -/

namespace Pagewright.Site

def clientScriptLines : List String := [
  "// cwrap runtime placeholders",
  "const inFrame = window !== window.parent;",
  "const search = inFrame ? window.parent.location.search : window.location.search;",
  "const params = Object.fromEntries(new URLSearchParams(search).entries());",
  "const token = /cwrapGetParams\\[(.*?)\\]/g;",
  "",
  "function resolve(value) \x7b",
  "  return value.replace(token, (_, key) => params[key] ?? \"\");",
  "\x7d",
  "",
  "function visit(node) \x7b",
  "  if (node.nodeType === Node.TEXT_NODE) \x7b",
  "    const next = resolve(node.nodeValue);",
  "    if (next !== node.nodeValue) \x7b",
  "      node.nodeValue = next;",
  "    \x7d",
  "    return;",
  "  \x7d",
  "",
  "  if (node.nodeType !== Node.ELEMENT_NODE) \x7b",
  "    return;",
  "  \x7d",
  "",
  "  for (const attr of node.attributes) \x7b",
  "    const next = resolve(attr.value);",
  "    if (next !== attr.value) \x7b",
  "      attr.value = next;",
  "    \x7d",
  "  \x7d",
  "",
  "  for (const child of node.childNodes) \x7b",
  "    visit(child);",
  "  \x7d",
  "\x7d",
  "",
  "visit(document.body);"]

def clientScript : String := String.join (clientScriptLines.map (· ++ "\n"))

def clientScriptName : String := "cwrapFunctions.js"

end Pagewright.Site
